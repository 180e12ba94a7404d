import WarheadFix.Shared.Socket

/-! Outgoing bytes. The socket refines a first-in first-out channel: the channel's pending
bytes are the active bytes of the queued packets, in queue order. One call of `HandleQueue`
either waits, drops the front packet, or advances the channel. -/

namespace Warhead
open Lib

namespace Socket
variable {s t : Socket} {net : Net} {answer : Nat → WriteResult}

def activeBytes (packets : List MessageBuffer) : Bytes := (packets.map MessageBuffer.active).flatten

def channel (s : Socket) : Channel UInt8 :=
  ⟨activeBytes s.queued, s.accepted, activeBytes s.writeQueue⟩

@[simp] theorem activeBytes_cons (b : MessageBuffer) (bs : List MessageBuffer) :
    activeBytes (b :: bs) = b.active ++ activeBytes bs := rfl

theorem activeBytes_concat (bs : List MessageBuffer) (b : MessageBuffer) :
    activeBytes (bs ++ [b]) = activeBytes bs ++ b.active := by
  simp [activeBytes]

section Fields

@[simp] theorem closeSocket_writeQueue : s.closeSocket.writeQueue = s.writeQueue := by
  unfold closeSocket; split_ifs <;> rfl

@[simp] theorem closeSocket_isWritingAsync : s.closeSocket.isWritingAsync = s.isWritingAsync := by
  unfold closeSocket; split_ifs <;> rfl

@[simp] theorem closeSocket_writes : s.closeSocket.writes = s.writes := by
  unfold closeSocket; split_ifs <;> rfl

@[simp] theorem closeSocket_reads : s.closeSocket.reads = s.reads := by
  unfold closeSocket; split_ifs <;> rfl

@[simp] theorem closeSocket_readBuffer : s.closeSocket.readBuffer = s.readBuffer := by
  unfold closeSocket; split_ifs <;> rfl

@[simp] theorem closeSocket_closing : s.closeSocket.closing = s.closing := by
  unfold closeSocket; split_ifs <;> rfl

@[simp] theorem closeSocket_queued : s.closeSocket.queued = s.queued := by
  unfold closeSocket; split_ifs <;> rfl

@[simp] theorem closeSocket_accepted : s.closeSocket.accepted = s.accepted := by
  unfold closeSocket; split_ifs <;> rfl

@[simp] theorem closeSocket_channel : s.closeSocket.channel = s.channel := by
  unfold closeSocket; split_ifs <;> rfl

@[simp] theorem closeSocket_closed : s.closeSocket.closed = true := by
  unfold closeSocket
  split_ifs with h
  · exact h
  · rfl

@[simp] theorem popPacket_writeQueue : s.popPacket.writeQueue = s.writeQueue.tail := by
  unfold popPacket; dsimp only; split_ifs <;> simp

@[simp] theorem popPacket_isWritingAsync : s.popPacket.isWritingAsync = s.isWritingAsync := by
  unfold popPacket; dsimp only; split_ifs <;> simp

@[simp] theorem popPacket_writes : s.popPacket.writes = s.writes := by
  unfold popPacket; dsimp only; split_ifs <;> simp

@[simp] theorem popPacket_channel :
    s.popPacket.channel = ⟨activeBytes s.queued, s.accepted, activeBytes s.writeQueue.tail⟩ := by
  unfold popPacket; dsimp only; split_ifs <;> simp [channel]

@[simp] theorem asyncProcessQueue_channel : s.asyncProcessQueue.1.channel = s.channel := by
  unfold asyncProcessQueue; split_ifs <;> rfl

@[simp] theorem asyncProcessQueue_writeQueue :
    s.asyncProcessQueue.1.writeQueue = s.writeQueue := by
  unfold asyncProcessQueue; split_ifs <;> rfl

@[simp] theorem asyncProcessQueue_snd : s.asyncProcessQueue.2 = false := by
  unfold asyncProcessQueue; split_ifs <;> rfl

end Fields

inductive Handles (answer : Nat → WriteResult) (s : Socket) : Socket × Bool → Prop where
  | empty (h : s.writeQueue = []) : Handles answer s (s, false)
  | waits {b : MessageBuffer} {rest : List MessageBuffer} (h : s.writeQueue = b :: rest)
      (ha : answer b.activeSize = .wouldBlock ∨ answer b.activeSize = .tryAgain) :
      Handles answer s s.asyncProcessQueue
  | drops {b : MessageBuffer} {rest : List MessageBuffer} (h : s.writeQueue = b :: rest)
      (ha : answer b.activeSize = .error ∨ answer b.activeSize = .sent 0) :
      Handles answer s (s.popPacket, false)
  | sends {b : MessageBuffer} {rest : List MessageBuffer} {n : Nat} (h : s.writeQueue = b :: rest)
      (ha : answer b.activeSize = .sent n) (hn : 0 < n) (hlt : n < b.activeSize) :
      Handles answer s { s with
        accepted := s.accepted ++ b.active.take n
        writeQueue := b.readCompleted n :: rest }.asyncProcessQueue
  | finishes {b : MessageBuffer} {rest : List MessageBuffer} {n : Nat}
      (h : s.writeQueue = b :: rest) (ha : answer b.activeSize = .sent n) (hn : 0 < n)
      (hle : b.activeSize ≤ n) :
      Handles answer s
        ({ s with accepted := s.accepted ++ b.active.take n }.popPacket, !rest.isEmpty)

theorem handleQueue_handles (answer : Nat → WriteResult) (s : Socket) :
    Handles answer s (s.handleQueue answer) := by
  unfold handleQueue
  cases hq : s.writeQueue with
  | nil => exact .empty hq
  | cons b rest =>
    simp only []
    cases ha : answer b.activeSize with
    | wouldBlock => exact .waits hq (.inl ha)
    | tryAgain => exact .waits hq (.inr ha)
    | error => exact .drops hq (.inl ha)
    | sent n =>
      simp only []
      split_ifs with h0 hlt
      · subst h0
        simpa [← hq] using Handles.drops hq (.inr ha)
      · exact .sends hq ha (Nat.pos_of_ne_zero h0) hlt
      · have hfin := Handles.finishes hq ha (Nat.pos_of_ne_zero h0) (Nat.le_of_not_lt hlt)
        simpa [hq] using hfin

/-! ## The loop ends -/

theorem Handles.goes_on (h : Handles answer s (t, true)) :
    ∃ b rest n, s.writeQueue = b :: rest ∧ answer b.activeSize = .sent n ∧ 0 < n ∧
      t.writeQueue = rest := by
  generalize hr : (t, true) = r at h
  cases h with
  | empty => simp at hr
  | waits => exact absurd (congrArg Prod.snd hr) (by simp)
  | drops => simp at hr
  | sends => exact absurd (congrArg Prod.snd hr) (by simp)
  | @finishes b rest n hq ha hn =>
    obtain rfl := congrArg Prod.fst hr
    exact ⟨b, rest, n, hq, ha, hn, by simp [hq]⟩

theorem Handles.shrinks (h : Handles answer s (t, true)) :
    t.writeQueue.length < s.writeQueue.length := by
  obtain ⟨b, rest, n, hq, -, -, ht⟩ := h.goes_on
  rw [hq, ht]
  exact Nat.lt_succ_self _

theorem drain_isSome (net : Net) {fuel : Nat} (n : Nat) (h : s.writeQueue.length < fuel) :
    ∃ t, ∀ more, s.writeQueue.length < more → drain net more n s = some t := by
  induction fuel generalizing s n with
  | zero => exact absurd h (Nat.not_lt_zero _)
  | succ fuel ih =>
    rcases hh : s.handleQueue (net n) with ⟨u, goesOn⟩
    cases goesOn with
    | false =>
      refine ⟨u, fun more hmore => ?_⟩
      obtain ⟨more, rfl⟩ := Nat.exists_eq_succ_of_ne_zero (Nat.ne_zero_of_lt hmore)
      simp only [drain, hh]
    | true =>
      have hlt : u.writeQueue.length < s.writeQueue.length :=
        Handles.shrinks (hh ▸ handleQueue_handles (net n) s)
      obtain ⟨t, ht⟩ := ih (s := u) (n + 1) (by omega)
      refine ⟨t, fun more hmore => ?_⟩
      obtain ⟨more, rfl⟩ := Nat.exists_eq_succ_of_ne_zero (Nat.ne_zero_of_lt hmore)
      simp only [drain, hh]
      exact ht more (by omega)

theorem update_terminates (net : Net) (s : Socket) :
    ∃ r, ∀ fuel, s.writeQueue.length < fuel → s.update net fuel = some r := by
  obtain ⟨t, ht⟩ := drain_isSome (s := s) net 0 (Nat.lt_succ_self _)
  unfold update
  split_ifs
  · exact ⟨_, fun _ _ => rfl⟩
  · exact ⟨_, fun _ _ => rfl⟩
  · exact ⟨(t, true), fun fuel hfuel => by rw [ht fuel hfuel]; rfl⟩

/-! ## What the callbacks keep -/

def Accepts (answer : Nat → WriteResult) : Prop :=
  ∀ size, 0 < size → answer size = .wouldBlock ∨ answer size = .tryAgain ∨
    ∃ n, answer size = .sent n ∧ 0 < n ∧ n ≤ size

/-- Queued packets have something to write, and a write is outstanding iff it is said to be. -/
structure QueueInv (s : Socket) : Prop where
  valid : ∀ b ∈ s.writeQueue, b.Valid
  pending : ∀ b ∈ s.writeQueue, 0 < b.activeSize
  writes : s.writes.length = if s.isWritingAsync then 1 else 0

theorem QueueInv.asyncProcessQueue (h : QueueInv s) : QueueInv s.asyncProcessQueue.1 := by
  unfold Socket.asyncProcessQueue
  split_ifs with hw
  · exact h
  · exact ⟨h.valid, h.pending, by simp [h.writes, hw]⟩

theorem QueueInv.popPacket (h : QueueInv s) : QueueInv s.popPacket where
  valid b hb := h.valid b (List.mem_of_mem_tail (by simpa using hb))
  pending b hb := h.pending b (List.mem_of_mem_tail (by simpa using hb))
  writes := by simpa using h.writes

theorem QueueInv.accepted (h : QueueInv s) (bs : Bytes) : QueueInv { s with accepted := bs } :=
  ⟨h.valid, h.pending, h.writes⟩

theorem QueueInv.readCompleted {b : MessageBuffer} {rest : List MessageBuffer} {n : Nat}
    (h : QueueInv s) (hq : s.writeQueue = b :: rest) (hlt : n < b.activeSize) (bs : Bytes) :
    QueueInv { s with accepted := bs, writeQueue := b.readCompleted n :: rest } := by
  have hb : b ∈ s.writeQueue := hq ▸ List.mem_cons_self ..
  have hrest : ∀ c ∈ rest, c ∈ s.writeQueue := fun c hc => hq ▸ List.mem_cons_of_mem _ hc
  refine ⟨?_, ?_, h.writes⟩
  · rintro c (_ | ⟨_, hc⟩)
    · exact MessageBuffer.valid_readCompleted (h.valid b hb) hlt.le
    · exact h.valid c (hrest c hc)
  · rintro c (_ | ⟨_, hc⟩)
    · rw [MessageBuffer.activeSize_readCompleted]
      exact Nat.sub_pos_of_lt hlt
    · exact h.pending c (hrest c hc)

theorem QueueInv.handles {r : Socket × Bool} (h : QueueInv s) (hr : Handles answer s r) :
    QueueInv r.1 := by
  cases hr with
  | empty => exact h
  | waits => exact h.asyncProcessQueue
  | drops => exact h.popPacket
  | sends hq _ _ hlt => exact (h.readCompleted hq hlt _).asyncProcessQueue
  | finishes => exact (h.accepted _).popPacket

theorem Handles.moves {r : Socket × Bool} (hvalid : ∀ b ∈ s.writeQueue, b.Valid)
    (hr : Handles answer s r) :
    Channel.Advances s.channel r.1.channel ∨
      ∃ b rest, s.writeQueue = b :: rest ∧
        (answer b.activeSize = .error ∨ answer b.activeSize = .sent 0) ∧
        r = (s.popPacket, false) := by
  cases hr with
  | empty => exact .inl (.refl _)
  | waits => exact .inl (by simpa using Channel.Advances.refl s.channel)
  | drops hq ha => exact .inr ⟨_, _, hq, ha, rfl⟩
  | @sends b rest n hq ha hn hlt =>
    left
    rw [asyncProcessQueue_channel]
    refine ⟨rfl, b.active.take n, ?_, rfl⟩
    simp only [channel, hq, activeBytes_cons]
    rw [← List.append_assoc, b.take_append_active n]
  | @finishes b rest n hq ha hn hle =>
    left
    have hlen := MessageBuffer.length_active (hvalid b (hq ▸ List.mem_cons_self ..))
    have htake : b.active.take n = b.active := List.take_of_length_le (hlen ▸ hle)
    rw [popPacket_channel, htake]
    exact ⟨rfl, b.active, by simp [channel, hq], rfl⟩

theorem QueueInv.advances {r : Socket × Bool} (h : QueueInv s) (hr : Handles answer s r)
    (hanswer : Accepts answer) : Channel.Advances s.channel r.1.channel := by
  rcases hr.moves h.valid with hadv | ⟨b, rest, hq, ha, -⟩
  · exact hadv
  · have hpos : 0 < b.activeSize := h.pending b (hq ▸ List.mem_cons_self ..)
    rcases hanswer _ hpos with hb | hb | ⟨n, hb, hn, _⟩ <;> simp [hb] at ha
    omega

theorem drain_keeps {n fuel : Nat} (hnet : ∀ i, Accepts (net i)) (h : QueueInv s)
    (hd : drain net fuel n s = some t) :
    QueueInv t ∧ Channel.Advances s.channel t.channel := by
  induction fuel generalizing s n with
  | zero => simp [drain] at hd
  | succ fuel ih =>
    have hone := h.handles (handleQueue_handles (net n) s)
    have hadv := h.advances (handleQueue_handles (net n) s) (hnet n)
    rcases hh : s.handleQueue (net n) with ⟨u, goesOn⟩
    simp only [drain, hh] at hd hone hadv
    cases goesOn with
    | false =>
      obtain rfl := Option.some.inj hd
      exact ⟨hone, hadv⟩
    | true =>
      obtain ⟨ht, hut⟩ := ih hone hd
      exact ⟨ht, hadv.trans hut⟩

theorem update_keeps {fuel : Nat} {more : Bool} (hnet : ∀ i, Accepts (net i)) (h : QueueInv s)
    (hu : s.update net fuel = some (t, more)) :
    QueueInv t ∧ Channel.Advances s.channel t.channel := by
  unfold update at hu
  split_ifs at hu
  · obtain rfl := congrArg Prod.fst (Option.some.inj hu)
    exact ⟨h, .refl _⟩
  · obtain rfl := congrArg Prod.fst (Option.some.inj hu)
    exact ⟨h, .refl _⟩
  · obtain ⟨u, hd, hut⟩ := Option.map_eq_some_iff.mp hu
    obtain rfl := congrArg Prod.fst hut
    exact drain_keeps hnet h hd

theorem writeHandlerWrapper_keeps (hnet : ∀ i, Accepts (net i)) (h : QueueInv s)
    (hw : s.writes ≠ []) :
    QueueInv (s.writeHandlerWrapper net) ∧
      Channel.Advances s.channel (s.writeHandlerWrapper net).channel := by
  have hone : s.writes.length = 1 := by
    have hlen := h.writes
    split_ifs at hlen
    · exact hlen
    · exact absurd (List.length_eq_zero_iff.mp hlen) hw
  have hclear : QueueInv { s with isWritingAsync := false, writes := s.writes.tail } :=
    ⟨h.valid, h.pending, by simp [hone]⟩
  exact ⟨hclear.handles (handleQueue_handles _ _),
    hclear.advances (handleQueue_handles _ _) (hnet 0)⟩

/-! ## Runs -/

structure Packet where
  buffer : MessageBuffer
  valid : buffer.Valid
  nonempty : 0 < buffer.activeSize

inductive WriteEvent where
  | queuePacket (packet : Packet)
  | update (net : { net : Net // ∀ i, Accepts (net i) })
  | writeReady (net : { net : Net // ∀ i, Accepts (net i) })
  | closeSocket
  | delayedCloseSocket

def writeStep (s : Socket) : WriteEvent → Option Socket
  | .queuePacket packet => some (s.queuePacket packet.buffer)
  | .update net => (s.update net.1 (s.writeQueue.length + 1)).map Prod.fst
  | .writeReady net => if s.writes = [] then none else some (s.writeHandlerWrapper net.1)
  | .closeSocket => some s.closeSocket
  | .delayedCloseSocket => some s.delayedCloseSocket

def writeSide : System Socket WriteEvent := ⟨new, writeStep⟩

theorem Packet.behind (packet : Packet) {queue : List MessageBuffer}
    (hvalid : ∀ b ∈ queue, b.Valid) (hpending : ∀ b ∈ queue, 0 < b.activeSize) :
    (∀ b ∈ queue ++ [packet.buffer], b.Valid) ∧
      ∀ b ∈ queue ++ [packet.buffer], 0 < b.activeSize := by
  constructor
  · exact List.forall_mem_append.mpr ⟨hvalid, List.forall_mem_singleton.mpr packet.valid⟩
  · exact List.forall_mem_append.mpr ⟨hpending, List.forall_mem_singleton.mpr packet.nonempty⟩

theorem QueueInv.queuePacket (h : QueueInv s) (packet : Packet) :
    QueueInv (s.queuePacket packet.buffer) := by
  obtain ⟨hvalid, hpending⟩ := packet.behind h.valid h.pending
  exact ⟨hvalid, hpending, h.writes⟩

theorem channel_queuePacket (s : Socket) (b : MessageBuffer) :
    s.channel.step (.enqueue b.active) = some (s.queuePacket b).channel := by
  simp only [Channel.step, channel, Socket.queuePacket, activeBytes_concat]

theorem writeStep_spec {e : WriteEvent} (h : QueueInv s) (hs : s.writeStep e = some t) :
    QueueInv t ∧ (t.channel = s.channel ∨ ∃ d, s.channel.step d = some t.channel) := by
  cases e with
  | queuePacket packet =>
    obtain rfl := Option.some.inj hs
    exact ⟨h.queuePacket packet, .inr ⟨_, channel_queuePacket s packet.buffer⟩⟩
  | update net =>
    obtain ⟨⟨u, more⟩, hu, rfl⟩ := Option.map_eq_some_iff.mp hs
    obtain ⟨ht, hadv⟩ := update_keeps net.2 h hu
    exact ⟨ht, .inr hadv.step⟩
  | writeReady net =>
    simp only [writeStep] at hs
    split_ifs at hs with hw
    obtain rfl := Option.some.inj hs
    obtain ⟨ht, hadv⟩ := writeHandlerWrapper_keeps net.2 h hw
    exact ⟨ht, .inr hadv.step⟩
  | closeSocket =>
    obtain rfl := Option.some.inj hs
    exact ⟨⟨by simpa using h.valid, by simpa using h.pending, by simpa using h.writes⟩,
      .inl closeSocket_channel⟩
  | delayedCloseSocket =>
    obtain rfl := Option.some.inj hs
    exact ⟨⟨h.valid, h.pending, h.writes⟩, .inl rfl⟩

def writeSideChannel : System.Simulation writeSide (Channel.system UInt8) where
  view := channel
  inv := QueueInv
  inv_start := ⟨by simp [writeSide, new], by simp [writeSide, new], rfl⟩
  inv_step _ _ _ h hs := (writeStep_spec h hs).1
  view_start := rfl
  matched _ _ _ h hs := (writeStep_spec h hs).2

end Socket

end Warhead
