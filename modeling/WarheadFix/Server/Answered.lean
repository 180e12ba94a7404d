import WarheadFix.Server.Authentication
import WarheadFix.Server.Reply
import WarheadFix.Server.StreamCuts

/-! What a client is sent. A session queues one packet at most, in answer to the logon it has
accepted, so that however the kernel takes the bytes, and whatever else arrives, the client
has been sent the beginning of that answer and nothing besides. -/

namespace Warhead
open Lib

namespace Socket
variable {s t : Socket} {net : Net} {answer : Nat → WriteResult}

theorem drain_rule {P : Socket → Prop}
    (hstep : ∀ answer s r, P s → Handles answer s r → P r.1) {fuel n : Nat} (hs : P s)
    (h : drain net fuel n s = some t) : P t := by
  induction fuel generalizing s n with
  | zero => cases h
  | succ fuel ih =>
    have hone := hstep _ s _ hs (handleQueue_handles (net n) s)
    rcases hh : s.handleQueue (net n) with ⟨u, goesOn⟩
    rw [hh] at hone
    simp only [drain, hh] at h
    cases goesOn with
    | false => exact Option.some.inj h ▸ hone
    | true => exact ih hone h

theorem update_rule {P : Socket → Prop}
    (hstep : ∀ answer s r, P s → Handles answer s r → P r.1) {fuel : Nat} {more : Bool}
    (hs : P s) (h : s.update net fuel = some (t, more)) : P t := by
  unfold update at h
  split_ifs at h
  · obtain ⟨rfl, -⟩ := Prod.mk.inj (Option.some.inj h)
    exact hs
  · obtain ⟨rfl, -⟩ := Prod.mk.inj (Option.some.inj h)
    exact hs
  · obtain ⟨u, hd, hut⟩ := Option.map_eq_some_iff.mp h
    obtain ⟨rfl, -⟩ := Prod.mk.inj hut
    exact drain_rule hstep hs hd

/-- A socket with one packet at most. What it has accepted is the beginning of the packet, and
the rest is in the queue or has been dropped from it. -/
structure OnePacket (s : Socket) : Prop where
  queue : QueueInv s
  count : s.writeQueue.length ≤ 1
  flow : s.accepted ++ activeBytes s.writeQueue = activeBytes s.queued ∨
    s.writeQueue = [] ∧ s.accepted <+: activeBytes s.queued

theorem OnePacket.accepted (h : s.OnePacket) : s.accepted <+: activeBytes s.queued := by
  rcases h.flow with hflow | ⟨-, hprefix⟩
  · exact ⟨_, hflow⟩
  · exact hprefix

theorem OnePacket.flow_cons (h : s.OnePacket) {b : MessageBuffer} {rest : List MessageBuffer}
    (hq : s.writeQueue = b :: rest) : rest = [] ∧ s.accepted ++ b.active = activeBytes s.queued := by
  have hcount := h.count
  rw [hq, List.length_cons] at hcount
  obtain rfl : rest = [] := List.length_eq_zero_iff.mp (by omega)
  refine ⟨rfl, ?_⟩
  rcases h.flow with hflow | ⟨hnil, -⟩
  · rw [hq, activeBytes_cons] at hflow
    exact (congrArg (s.accepted ++ ·) (List.append_nil b.active)).symm.trans hflow
  · exact absurd (hq.symm.trans hnil) (List.cons_ne_nil b [])

theorem OnePacket.handles {r : Socket × Bool} (h : s.OnePacket) (hr : Handles answer s r) :
    r.1.OnePacket := by
  have hqueue := h.queue.handles hr
  cases hr with
  | empty => exact h
  | waits =>
    refine ⟨hqueue, ?_, ?_⟩
    · rw [asyncProcessQueue_writeQueue]
      exact h.count
    · have hsame := congrArg Channel.sent (asyncProcessQueue_channel (s := s))
      have hqueued := congrArg Channel.enqueued (asyncProcessQueue_channel (s := s))
      dsimp only [channel] at hsame hqueued
      rw [hsame, hqueued, asyncProcessQueue_writeQueue]
      exact h.flow
  | @drops b rest hq ha =>
    obtain ⟨rfl, hflow⟩ := h.flow_cons hq
    have hchannel := popPacket_channel (s := s)
    have hnil : s.popPacket.writeQueue = [] := by
      rw [popPacket_writeQueue, hq]
      rfl
    refine ⟨hqueue, by rw [hnil]; exact Nat.zero_le 1, .inr ⟨hnil, ?_⟩⟩
    rw [show s.popPacket.accepted = s.accepted from congrArg Channel.sent hchannel,
      show activeBytes s.popPacket.queued = _ from congrArg Channel.enqueued hchannel, ← hflow]
    exact List.prefix_append _ _
  | @sends b rest n hq ha hn hlt =>
    obtain ⟨rfl, hflow⟩ := h.flow_cons hq
    refine ⟨hqueue, ?_, .inl ?_⟩
    · rw [asyncProcessQueue_writeQueue]
      exact le_rfl
    · have hchannel := asyncProcessQueue_channel (s := { s with
        accepted := s.accepted ++ b.active.take n, writeQueue := [b.readCompleted n] })
      rw [asyncProcessQueue_writeQueue]
      refine (congrArg (· ++ _) (congrArg Channel.sent hchannel)).trans
        (Eq.trans ?_ (congrArg Channel.enqueued hchannel).symm)
      dsimp only [channel]
      rw [activeBytes_cons, ← List.append_assoc, List.append_assoc s.accepted,
        b.take_append_active n, ← hflow]
      exact List.append_nil _
  | @finishes b rest n hq ha hn hle =>
    obtain ⟨rfl, hflow⟩ := h.flow_cons hq
    have hlen := MessageBuffer.length_active (h.queue.valid b (hq ▸ List.mem_cons_self ..))
    have htake : b.active.take n = b.active := List.take_of_length_le (hlen ▸ hle)
    rw [htake] at hqueue ⊢
    have hchannel := popPacket_channel (s := { s with accepted := s.accepted ++ b.active })
    have hnil : ({ s with accepted := s.accepted ++ b.active } : Socket).popPacket.writeQueue = [] := by
      rw [popPacket_writeQueue, hq]
      rfl
    refine ⟨hqueue, by rw [hnil]; exact Nat.zero_le 1, .inl ?_⟩
    rw [hnil]
    refine (congrArg (· ++ _) (congrArg Channel.sent hchannel)).trans
      (Eq.trans ?_ (congrArg Channel.enqueued hchannel).symm)
    exact (List.append_nil _).trans hflow

theorem QueueInv.writeReady (h : QueueInv s) (hw : s.writes ≠ []) :
    QueueInv { s with isWritingAsync := false, writes := s.writes.tail } := by
  refine ⟨h.valid, h.pending, ?_⟩
  have hlen := h.writes
  split_ifs at hlen
  · rw [List.length_tail, hlen]
    rfl
  · exact absurd (List.length_eq_zero_iff.mp hlen) hw

theorem OnePacket.writeHandlerWrapper (h : s.OnePacket) (hw : s.writes ≠ []) (net : Net) :
    (s.writeHandlerWrapper net).OnePacket :=
  OnePacket.handles ⟨h.queue.writeReady hw, h.count, h.flow⟩ (handleQueue_handles (net 0) _)

theorem OnePacket.of_eq (h : s.OnePacket) (hq : t.writeQueue = s.writeQueue)
    (hw : t.writes = s.writes) (ha : t.isWritingAsync = s.isWritingAsync)
    (hqueued : t.queued = s.queued) (hacc : t.accepted = s.accepted) : t.OnePacket := by
  refine ⟨⟨?_, ?_, ?_⟩, ?_, ?_⟩
  · exact hq ▸ h.queue.valid
  · exact hq ▸ h.queue.pending
  · rw [hw, ha]
    exact h.queue.writes
  · exact hq ▸ h.count
  · rw [hacc, hq, hqueued]
    exact h.flow

theorem OnePacket.queuePacket (h : s.OnePacket) (hnone : s.queued = []) (packet : Packet) :
    (s.queuePacket packet.buffer).OnePacket := by
  have hflow : s.accepted = [] ∧ s.writeQueue = [] := by
    cases hq : s.writeQueue with
    | nil =>
      have hprefix := h.accepted
      rw [hnone] at hprefix
      exact ⟨List.prefix_nil.mp hprefix, rfl⟩
    | cons b rest =>
      have hempty := (h.flow_cons hq).2
      have hpos := h.queue.pending b (hq ▸ List.mem_cons_self ..)
      have hlen := MessageBuffer.length_active (h.queue.valid b (hq ▸ List.mem_cons_self ..))
      rw [hnone] at hempty
      rw [(List.append_eq_nil_iff.mp hempty).2] at hlen
      exact absurd hpos (Nat.not_lt.mpr hlen.ge)
  refine ⟨h.queue.queuePacket packet, ?_, .inl ?_⟩
  · change (s.writeQueue ++ [packet.buffer]).length ≤ 1
    rw [hflow.2]
    exact le_rfl
  · change s.accepted ++ activeBytes (s.writeQueue ++ [packet.buffer]) =
      activeBytes (s.queued ++ [packet.buffer])
    rw [hflow.1, hflow.2, hnone]
    rfl

end Socket

def HandlerRun.answered (r : HandlerRun) : Bool := r.key == ascii "A" && r.accepted

def HandlerRun.answer (r : HandlerRun) (text : Bytes) : Bytes :=
  resized r.buffer.storage 4096 ++ text ++ [0]

namespace AuthSession
open Hffix

def Event.Delivers : Event → Prop
  | .update net | .writeReady net => ∀ i, Socket.Accepts (net i)
  | _ => True

section Answers
variable {E : Env → Prop} {env : Env} {s t : AuthSession} {p q : Process} {e : Event}

/-- Nothing has been queued before a logon was accepted, and one packet for it since. -/
structure Answered (E : Env → Prop) (s : AuthSession) : Prop where
  socket : s.OnePacket
  silent : s.status = .notAuthed → s.queued = [] ∧ s.handled.filter HandlerRun.answered = []
  queued : s.queued = [] ∧ s.handled.filter HandlerRun.answered = [] ∨
    ∃ packet r env, s.queued = [packet] ∧ s.handled.filter HandlerRun.answered = [r] ∧ E env ∧
      FixMessage.reply env r.buffer.storage = .ok packet

theorem Answered.of_eq (h : s.Answered E) (hs : t.toSocket.OnePacket)
    (hq : t.queued = s.queued) (hstatus : t.status = .notAuthed → s.status = .notAuthed)
    (hh : t.handled.filter HandlerRun.answered = s.handled.filter HandlerRun.answered) :
    t.Answered E := by
  refine ⟨hs, ?_, ?_⟩
  · rw [hq, hh]
    exact fun hn => h.silent (hstatus hn)
  · rw [hq, hh]
    exact h.queued

def replyPacket {mem : Bytes} {packet : MessageBuffer}
    (h : FixMessage.reply env mem = .ok packet) : Socket.Packet where
  buffer := packet
  valid := by
    obtain ⟨text, -, h⟩ := bind_eq_ok.mp h
    split_ifs at h
    obtain rfl := Except.ok.inj h
    refine ⟨Nat.zero_le _, ?_⟩
    simp [length_resized]
  nonempty := by
    obtain ⟨text, -, h⟩ := bind_eq_ok.mp h
    split_ifs at h
    obtain rfl := Except.ok.inj h
    exact Nat.succ_pos _

theorem filter_noteRun {r : HandlerRun} (h : r.answered = false) :
    (s.noteRun r).handled.filter HandlerRun.answered = s.handled.filter HandlerRun.answered := by
  change (s.handled ++ [r]).filter _ = _
  rw [List.filter_append, List.filter_cons_of_neg (by rw [h]; exact Bool.false_ne_true)]
  exact List.append_nil _

theorem Answered.noteRun (h : s.Answered E) {r : HandlerRun} (hr : r.answered = false) :
    (s.noteRun r).Answered E := by
  apply h.of_eq
  · exact h.socket
  · rfl
  · exact id
  · exact filter_noteRun hr

theorem Answered.logErrors (h : s.Answered E) (lines : List LogLine) :
    (s.logErrors lines).Answered E :=
  ⟨h.socket, h.silent, h.queued⟩

theorem Answered.closeSocket (h : s.Answered E) : s.closeSocket.Answered E := by
  refine h.of_eq (h.socket.of_eq ?_ ?_ ?_ ?_ ?_) ?_ id rfl <;>
    simp [AuthSession.closeSocket]

theorem Answered.ran {key : Bytes} {x : AuthSession × Result Bool} (h : s.Answered E)
    (hE : E env) (hs : statusFor key = some s.status) (hr : Ran env s key x) :
    x.1.Answered E := by
  have hnot {b : MessageBuffer} {result : Result Bool}
      (hresult : HandlerRun.accepted ⟨key, b, result⟩ = false) :
      HandlerRun.answered ⟨key, b, result⟩ = false := by
    rw [HandlerRun.answered, hresult, Bool.and_false]
  cases hr with
  | fault => exact h.noteRun (hnot rfl)
  | failed => exact (h.logErrors _).noteRun (hnot rfl)
  | order => exact h.noteRun rfl
  | replyFault =>
    have hauthed : ({ s with status := .authed } : AuthSession).Answered E :=
      ⟨h.socket, fun hn => (nomatch hn), h.queued⟩
    exact hauthed.noteRun (hnot rfl)
  | @logon packet hread hreply =>
    -- the logon handler is for sessions that have not been answered yet
    have hstatus : s.status = .notAuthed := by
      rcases statusFor_eq_some hs with ⟨-, hn⟩ | ⟨hkey, -⟩
      · exact hn
      · exact absurd hkey (by decide)
    obtain ⟨hqueued, hhandled⟩ := h.silent hstatus
    refine ⟨?_, fun hn => (nomatch hn), .inr ⟨packet, ⟨ascii "A", s.readBuffer, .ok true⟩, env,
      ?_, ?_, hE, hreply⟩⟩
    · exact h.socket.queuePacket hqueued (replyPacket hreply)
    · change s.queued ++ [packet] = [packet]
      rw [hqueued]
      rfl
    · change (s.handled ++ [_]).filter HandlerRun.answered = _
      rw [List.filter_append, hhandled]
      rfl

theorem Answered.exits {x : AuthSession × Result Unit} (h : s.Answered E) (hE : E env)
    (hu : s.Reading) (hx : Exits env s x) : x.1.Answered E := by
  cases hx with
  | fault => exact h
  | unsupportProtocol => exact (h.logErrors _).closeSocket
  | unknownCommand => exact h.logErrors _
  | wrongStatus => exact h.closeSocket
  | handlerFault hd hr => exact h.ran hE (decisionOf_run.mp hd).2.2 hr
  | rejected hd hr => exact (h.ran hE (decisionOf_run.mp hd).2.2 hr).closeSocket
  | accepted hd hr =>
    have hran := h.ran hE (decisionOf_run.mp hd).2.2 hr
    rw [(hu.ran hr).asyncRead_eq]
    exact hran.of_eq (hran.socket.of_eq rfl rfl rfl rfl rfl) rfl id rfl

theorem Answered.step (h : p.session.Answered E) (hi : Inv p) (he : ∀ env ∈ readEnvs [e], E env)
    (hq : step p e = some q) : q.session.Answered E := by
  obtain ⟨s, failure⟩ := p
  have hsocket {u : Socket} (hw : Socket.Writes s.toSocket u) (hu : u.OnePacket) :
      ({ s with toSocket := u } : AuthSession).Answered E := by
    apply h.of_eq
    · exact hu
    · exact hw.queued
    · exact id
    · rfl
  cases e with
  | readCompletion env data =>
    cases hi.steps hq with
    | received ha _ _ hlen =>
      have hu := ha.delivered hlen
      have hdelivered : (s.delivered data).Answered E :=
        h.of_eq (h.socket.of_eq rfl rfl rfl rfl rfl) rfl id rfl
      rw [after_session]
      exact hdelivered.exits (he env (List.mem_singleton_self env)) hu
        (readHandler_exits env hu.isOpen)
    | wrote _ _ hne => exact absurd rfl (hne env data)
  | readError =>
    simp only [AuthSession.step] at hq
    split_ifs at hq
    obtain rfl := Option.some.inj hq
    apply Answered.closeSocket
    exact h.of_eq (h.socket.of_eq rfl rfl rfl rfl rfl) rfl id rfl
  | update net =>
    simp only [AuthSession.step] at hq
    split_ifs at hq
    obtain ⟨⟨u, more⟩, hu, rfl⟩ := Option.map_eq_some_iff.mp hq
    exact hsocket (Socket.update_writes hu).1
      (Socket.update_rule (fun _ _ _ => Socket.OnePacket.handles) h.socket hu)
  | writeReady net =>
    simp only [AuthSession.step] at hq
    split_ifs at hq with _ hw
    obtain rfl := Option.some.inj hq
    exact hsocket (Socket.writes_writeHandlerWrapper net _) (h.socket.writeHandlerWrapper hw net)

theorem Exits.channel {x : AuthSession × Result Unit} (hu : s.Reading) (hx : Exits env s x) :
    x.1.channel = s.channel ∨ ∃ packet, x.1.channel = (s.queuePacket packet).channel := by
  have hran {key : Bytes} {y : AuthSession × Result Bool} (hr : Ran env s key y) :
      y.1.channel = s.channel ∨ ∃ packet, y.1.channel = (s.queuePacket packet).channel := by
    cases hr with
    | logon => exact .inr ⟨_, rfl⟩
    | _ => exact .inl rfl
  have hclose (t : AuthSession) : t.closeSocket.channel = t.channel := Socket.closeSocket_channel
  cases hx with
  | fault => exact .inl rfl
  | unsupportProtocol => exact .inl (hclose _)
  | unknownCommand => exact .inl rfl
  | wrongStatus => exact .inl (hclose _)
  | handlerFault _ hr => exact hran hr
  | rejected _ hr =>
    rw [hclose]
    exact hran hr
  | accepted _ hr =>
    rw [(hu.ran hr).asyncRead_eq]
    exact hran hr

theorem conserved_step (h : p.session.channel.Conserved) (hqueue : Socket.QueueInv p.session.toSocket)
    (hi : Inv p) (he : e.Delivers) (hq : step p e = some q) : q.session.channel.Conserved := by
  have hadvance {u : Socket} (hu : Channel.Advances p.session.channel u.channel) :
      u.channel.Conserved := by
    obtain ⟨d, hd⟩ := hu.step
    exact h.step hd
  cases e with
  | readCompletion env data =>
    cases hi.steps hq with
    | received ha _ _ hlen =>
      have hu := ha.delivered hlen
      rw [after_session]
      rcases (readHandler_exits env hu.isOpen).channel hu with hsame | ⟨packet, hadd⟩
      · rw [hsame]
        exact h
      · rw [hadd]
        exact h.step (Socket.channel_queuePacket p.session.toSocket packet)
    | wrote _ _ hne => exact absurd rfl (hne env data)
  | readError =>
    simp only [AuthSession.step] at hq
    split_ifs at hq
    obtain rfl := Option.some.inj hq
    have hclose := Socket.closeSocket_channel
      (s := { p.session.toSocket with reads := p.session.reads.tail })
    exact hclose ▸ h
  | update net =>
    simp only [AuthSession.step] at hq
    split_ifs at hq
    obtain ⟨⟨u, more⟩, hu, rfl⟩ := Option.map_eq_some_iff.mp hq
    exact hadvance (Socket.update_keeps he hqueue hu).2
  | writeReady net =>
    simp only [AuthSession.step] at hq
    split_ifs at hq with _ hw
    obtain rfl := Option.some.inj hq
    exact hadvance (Socket.writeHandlerWrapper_keeps he hqueue hw).2

/-! ## Runs -/

variable {es : List Event}

theorem readEnvs_append (es fs : List Event) : readEnvs (es ++ fs) = readEnvs es ++ readEnvs fs := by
  induction es with
  | nil => rfl
  | cons e es ih => cases e <;> simp [readEnvs, ih]

theorem answered_run (h : p.session.Answered E) (hi : Inv p) (hE : ∀ env ∈ readEnvs es, E env)
    (hrun : system.runFrom p es = some q) : q.session.Answered E := by
  induction es generalizing p with
  | nil => exact Option.some.inj hrun ▸ h
  | cons e es ih =>
    obtain ⟨m, hm, hrun⟩ := System.runFrom_cons.mp hrun
    have hsplit := readEnvs_append [e] es
    rw [List.singleton_append] at hsplit
    rw [hsplit, List.forall_mem_append] at hE
    exact ih (h.step hi hE.1 hm) (hi.step hm) hE.2 hrun

theorem conserved_run (h : p.session.channel.Conserved) (ha : p.session.Answered E) (hi : Inv p)
    (hE : ∀ env ∈ readEnvs es, E env) (hdelivers : ∀ e ∈ es, e.Delivers)
    (hrun : system.runFrom p es = some q) : q.session.channel.Conserved := by
  induction es generalizing p with
  | nil => exact Option.some.inj hrun ▸ h
  | cons e es ih =>
    obtain ⟨m, hm, hrun⟩ := System.runFrom_cons.mp hrun
    obtain ⟨he, hes⟩ := List.forall_mem_cons.mp hdelivers
    have hsplit := readEnvs_append [e] es
    rw [List.singleton_append] at hsplit
    rw [hsplit, List.forall_mem_append] at hE
    exact ih (conserved_step h ha.socket.queue hi he hm) (ha.step hi hE.1 hm) (hi.step hm) hE.2 hes
      hrun

theorem start_eq : new.start = { new with reads := [⟨0, 4096⟩] } :=
  armed_asyncRead rfl rfl rfl rfl rfl (length_resized _ _)

theorem conserved_start : new.start.channel.Conserved := by
  rw [start_eq]
  rfl

theorem answered_start : new.start.Answered E := by
  rw [start_eq]
  refine ⟨⟨⟨?_, ?_, rfl⟩, Nat.zero_le 1, .inl rfl⟩, fun _ => ⟨rfl, rfl⟩, .inl ⟨rfl, rfl⟩⟩
  · exact fun _ hb => absurd hb List.not_mem_nil
  · exact fun _ hb => absurd hb List.not_mem_nil

theorem answered_of_run (hrun : system.runFrom system.start es = some q) :
    q.session.Answered (· ∈ readEnvs es) :=
  have hstart : system.start.session.Answered (· ∈ readEnvs es) := answered_start
  answered_run hstart armed_start.inv (fun _ henv => henv) hrun

theorem conserved_of_run (hdelivers : ∀ e ∈ es, e.Delivers)
    (hrun : system.runFrom system.start es = some q) : q.session.channel.Conserved :=
  have hstart : system.start.session.Answered (· ∈ readEnvs es) := answered_start
  have hempty : system.start.session.channel.Conserved := conserved_start
  conserved_run hempty hstart armed_start.inv (fun _ henv => henv) hdelivers hrun

theorem Answered.cases (h : s.Answered E) :
    s.handled.filter HandlerRun.answered = [] ∧ s.queued = [] ∨
      ∃ r env text, s.handled.filter HandlerRun.answered = [r] ∧ E env ∧
        FixMessage.replyText env = .ok text ∧ Socket.activeBytes s.queued = r.answer text := by
  rcases h.queued with ⟨hqueued, hhandled⟩ | ⟨packet, r, env, hqueued, hhandled, henv, hreply⟩
  · exact .inl ⟨hhandled, hqueued⟩
  · obtain ⟨text, htext, hactive⟩ := active_of_reply hreply
    refine .inr ⟨r, env, text, hhandled, henv, htext, ?_⟩
    rw [hqueued, Socket.activeBytes_cons, hactive]
    exact List.append_nil _

/-- In every run the client has been sent nothing, or the beginning of the answer to the one
logon that was accepted; and as long as no write fails, what is missing of it is queued. -/
theorem client_sent_answer (hrun : system.runFrom system.start es = some q) :
    q.session.handled.filter HandlerRun.answered = [] ∧ q.session.queued = [] ∧
        q.session.accepted = [] ∨
      ∃ r env text, q.session.handled.filter HandlerRun.answered = [r] ∧ env ∈ readEnvs es ∧
        FixMessage.replyText env = .ok text ∧ q.session.accepted <+: r.answer text ∧
        ((∀ e ∈ es, e.Delivers) →
          q.session.accepted ++ Socket.activeBytes q.session.writeQueue = r.answer text) := by
  have ha := answered_of_run hrun
  have haccepted := ha.socket.accepted
  rcases ha.cases with ⟨hhandled, hqueued⟩ | ⟨r, env, text, hhandled, henv, htext, hbytes⟩
  · rw [hqueued] at haccepted
    exact .inl ⟨hhandled, hqueued, List.prefix_nil.mp haccepted⟩
  · rw [hbytes] at haccepted
    refine .inr ⟨r, env, text, hhandled, henv, htext, haccepted, fun hdelivers => ?_⟩
    have hconserved := conserved_of_run hdelivers hrun
    exact hconserved.trans hbytes

def thousands : Net := fun n size => if n = 0 then .sent (min size 1000) else .wouldBlock

theorem thousands_accepts (i : Nat) : Socket.Accepts (thousands i) := by
  intro size hsize
  unfold thousands
  split_ifs
  · exact .inr (.inr ⟨_, rfl, by omega, by omega⟩)
  · exact .inl rfl

theorem client_sent_answer_thousands :
    ∃ q r env text,
      system.runFrom system.start
        [.readCompletion sampleEnv (fixText sampleLogon), .update thousands] = some q ∧
      q.session.handled.filter HandlerRun.answered = [r] ∧
      FixMessage.replyText env = .ok text ∧ q.session.accepted <+: r.answer text ∧
      q.session.accepted ++ Socket.activeBytes q.session.writeQueue = r.answer text := by
  obtain ⟨t, ht, -, -, -, hhandled⟩ := armed_start.arrives (f := sampleLogon) sampleEnv
    rfl (by decide) (by decide +kernel)
  obtain ⟨⟨u, more⟩, hu⟩ := Socket.update_terminates thousands t.toSocket
  have hupdate : step ⟨t, none⟩ (.update thousands) =
      some ⟨{ t with toSocket := u }, none⟩ := by
    simp only [AuthSession.step, hu _ (Nat.lt_succ_self _)]
    rfl
  have hrun := runFrom_step ht (runFrom_one hupdate)
  rcases client_sent_answer hrun with ⟨hnone, -⟩ | ⟨r, env, text, hr, -, htext, hprefix, hall⟩
  · rw [show _ = new.start.handled ++ _ from hhandled, start_eq] at hnone
    cases hnone
  · refine ⟨_, r, env, text, hrun, hr, htext, hprefix, hall ?_⟩
    simp only [List.forall_mem_cons, List.not_mem_nil, false_implies, implies_true, and_true]
    exact ⟨trivial, thousands_accepts⟩

end Answers
end AuthSession
end Warhead
