import WarheadFix.Server.Dispatch
import WarheadFix.Shared.SocketLife

/-! Runs of a session. Between callbacks it waits for one read into an empty buffer, or it
has none outstanding and never will; the steps are those of the read side, by the exits of
`ReadHandler`, and those of the write side. -/

namespace Warhead.AuthSession
open Lib

structure Armed (s : AuthSession) : Prop where
  reads : s.reads = [⟨0, 4096⟩]
  closed : s.closed = false
  closing : s.closing = false
  rpos : s.readBuffer.rpos = 0
  wpos : s.readBuffer.wpos = 0
  storage : s.readBuffer.storage.length = 4096

structure Inv (p : Process) : Prop where
  reads : p.session.reads = [] ∨ p.session.Armed
  closing : p.session.closing = false
  rpos : p.session.readBuffer.rpos = 0
  storage : p.session.readBuffer.storage.length = 4096

def overlay (s : AuthSession) (data : Bytes) : Bytes :=
  data ++ s.readBuffer.storage.drop data.length

def delivered (s : AuthSession) (data : Bytes) : AuthSession :=
  { s with reads := [], readBuffer := ⟨data.length, 0, s.overlay data⟩ }

/-- What happens with nobody waiting for it leaves the process as it is. -/
def advance (p : Process) (e : Event) : Process := (step p e).getD p

section Steps
variable {s t : AuthSession} {p q : Process} {env : Env} {data : Bytes} {e : Event}

theorem Armed.length_overlay (h : s.Armed) (hd : data.length ≤ 4096) :
    (s.overlay data).length = 4096 := by
  rw [overlay, List.length_append, List.length_drop, h.storage]
  omega

theorem Armed.completeRead_eq (h : s.Armed) (env : Env) (data : Bytes) :
    s.completeRead ⟨0, 4096⟩ env data = .after ((s.delivered data).readHandler env) := by
  unfold completeRead readHandlerInternal Socket.received delivered overlay
  simp only [h.reads, List.tail_cons, overwrite_zero, MessageBuffer.writeCompleted, h.rpos, h.wpos,
    Nat.zero_add]

theorem Armed.isOpen_delivered (h : s.Armed) (data : Bytes) :
    (s.delivered data).isOpen = true := by
  simp [Socket.isOpen, delivered, h.closed, h.closing]

theorem armed_asyncRead (hr : s.reads = []) (hc : s.closed = false) (hcl : s.closing = false)
    (hrpos : s.readBuffer.rpos = 0) (hwpos : s.readBuffer.wpos = 0)
    (hs : s.readBuffer.storage.length = 4096) :
    s.asyncRead = { s with reads := [⟨0, 4096⟩] } := by
  have hspace : s.readBuffer.remainingSpace = 4096 := by
    rw [MessageBuffer.remainingSpace, hs, hwpos]
  have hnorm : s.readBuffer.normalize.ensureFreeSpace = s.readBuffer := by
    have hroom : s.readBuffer.wpos < s.readBuffer.storage.length := by
      rw [hwpos, hs]
      decide
    rw [MessageBuffer.normalize_of_rpos_zero hrpos, MessageBuffer.ensureFreeSpace_of_space hroom]
  unfold AuthSession.asyncRead Socket.asyncRead
  simp only [Socket.isOpen, hc, hcl, hr, hnorm, hspace, hwpos, Bool.not_false, Bool.and_self,
    if_true, List.nil_append]

inductive Steps (p : Process) : Event → Process → Prop where
  | received {env : Env} {data : Bytes} (ha : p.session.Armed) (hp : p.failure = none)
      (hne : data ≠ []) (hlen : data.length ≤ 4096) :
      Steps p (.readCompletion env data) (.after ((p.session.delivered data).readHandler env))
  | readFailed (ha : p.session.Armed) (hp : p.failure = none) :
      Steps p .readError ⟨{ p.session with reads := [] }.closeSocket, none⟩
  | wrote {e : Event} {u : Socket} (hp : p.failure = none) (hw : Socket.Writes p.session.toSocket u)
      (he : ∀ env data, e ≠ .readCompletion env data) :
      Steps p e ⟨{ p.session with toSocket := u }, none⟩

theorem Inv.steps (hi : Inv p) (h : step p e = some q) : Steps p e q := by
  obtain ⟨s, failure⟩ := p
  cases failure with
  | some f => exact absurd h nofun
  | none =>
  cases e with
  | readCompletion env data =>
    rcases hi.reads with hnil | ha
    · simp [step, show s.reads = [] from hnil] at h
    · have hr : s.reads = [⟨0, 4096⟩] := ha.reads
      simp only [step, hr, Option.isSome_none, Bool.false_eq_true, if_false] at h
      split_ifs at h with hd
      obtain rfl := Option.some.inj h
      rw [show completeRead s ⟨0, 4096⟩ env data = _ from ha.completeRead_eq env data]
      exact .received ha rfl hd.1 hd.2
  | readError =>
    rcases hi.reads with hnil | ha
    · simp [step, show s.reads = [] from hnil] at h
    · have hr : s.reads = [⟨0, 4096⟩] := ha.reads
      simp only [step, hr, Option.isSome_none, Bool.false_eq_true, if_false, List.tail_cons,
        List.cons_ne_nil] at h
      obtain rfl := Option.some.inj h
      exact .readFailed ha rfl
  | update net =>
    obtain ⟨⟨u, more⟩, hu, rfl⟩ := Option.map_eq_some_iff.mp h
    exact .wrote rfl (Socket.update_writes hu).1 nofun
  | writeReady net =>
    simp only [step, Option.isSome_none, Bool.false_eq_true, if_false] at h
    split_ifs at h
    obtain rfl := Option.some.inj h
    exact .wrote rfl (Socket.writes_writeHandlerWrapper net _) nofun

/-! ## The invariant -/

structure Reading (s : AuthSession) : Prop where
  reads : s.reads = []
  closed : s.closed = false
  closing : s.closing = false
  rpos : s.readBuffer.rpos = 0
  storage : s.readBuffer.storage.length = 4096

theorem Armed.delivered (h : s.Armed) (hd : data.length ≤ 4096) : (s.delivered data).Reading :=
  ⟨rfl, h.closed, h.closing, rfl, h.length_overlay hd⟩

theorem Reading.isOpen (h : s.Reading) : s.isOpen = true := by
  simp [Socket.isOpen, h.closed, h.closing]

theorem Reading.of_eq (h : s.Reading) (hb : t.readBuffer = s.readBuffer) (hr : t.reads = s.reads)
    (hc : t.closed = s.closed) (hcl : t.closing = s.closing) : t.Reading :=
  ⟨hr.trans h.reads, hc.trans h.closed, hcl.trans h.closing, by rw [hb, h.rpos],
    by rw [hb, h.storage]⟩

theorem Reading.logErrors (h : s.Reading) (lines : List LogLine) : (s.logErrors lines).Reading :=
  ⟨h.reads, h.closed, h.closing, h.rpos, h.storage⟩

theorem Reading.ran {key : Bytes} {x : AuthSession × Result Bool} (h : s.Reading)
    (hr : Ran env s key x) : x.1.Reading := by
  cases hr <;> exact h.of_eq rfl rfl rfl rfl

theorem Reading.asyncRead_eq (h : s.Reading) : s.resetReadBuffer.asyncRead =
    { s with reads := [⟨0, 4096⟩], readBuffer := s.readBuffer.reset } :=
  armed_asyncRead (s := s.resetReadBuffer) h.reads h.closed h.closing rfl rfl h.storage

theorem Reading.accepted (h : s.Reading) : s.resetReadBuffer.asyncRead.Armed := by
  rw [h.asyncRead_eq]
  exact ⟨rfl, h.closed, h.closing, rfl, rfl, h.storage⟩

theorem Armed.inv {f : Option (Fault Exn)} (h : s.Armed) : Inv ⟨s, f⟩ :=
  ⟨.inr h, h.closing, h.rpos, h.storage⟩

theorem Reading.inv {f : Option (Fault Exn)} (h : s.Reading) : Inv ⟨s, f⟩ :=
  ⟨.inl h.reads, h.closing, h.rpos, h.storage⟩

theorem Reading.inv_closeSocket {f : Option (Fault Exn)} (h : s.Reading) :
    Inv ⟨s.closeSocket, f⟩ := by
  unfold AuthSession.closeSocket
  exact ⟨.inl (by simpa using h.reads), by simpa using h.closing, by simpa using h.rpos,
    by simpa using h.storage⟩

theorem Reading.inv_exits {x : AuthSession × Result Unit} (h : s.Reading) (hx : Exits env s x) :
    Inv (.after x) := by
  cases hx with
  | fault => exact h.inv
  | unsupportProtocol => exact (h.logErrors _).inv_closeSocket
  | unknownCommand => exact (h.logErrors _).inv
  | wrongStatus => exact h.inv_closeSocket
  | handlerFault _ hr => exact (h.ran hr).inv
  | rejected _ hr => exact (h.ran hr).inv_closeSocket
  | accepted _ hr => exact (h.ran hr).accepted.inv

theorem Inv.wrote {f : Option (Fault Exn)} {u : Socket} (h : Inv p)
    (hw : Socket.Writes p.session.toSocket u) : Inv ⟨{ p.session with toSocket := u }, f⟩ := by
  refine ⟨?_, hw.closing.trans h.closing, by rw [hw.readBuffer]; exact h.rpos,
    by rw [hw.readBuffer]; exact h.storage⟩
  rcases h.reads with hnil | ha
  · exact .inl (hw.reads.trans hnil)
  · exact .inr ⟨hw.reads.trans ha.reads, (hw.stays ha.closing).trans ha.closed,
      hw.closing.trans ha.closing, by rw [hw.readBuffer]; exact ha.rpos,
      by rw [hw.readBuffer]; exact ha.wpos, by rw [hw.readBuffer]; exact ha.storage⟩

theorem Armed.inv_readFailed (h : s.Armed) {f : Option (Fault Exn)} :
    Inv ⟨{ s with reads := [] }.closeSocket, f⟩ :=
  Reading.inv_closeSocket ⟨rfl, h.closed, h.closing, h.rpos, h.storage⟩

theorem Inv.step (h : Inv p) (hq : step p e = some q) : Inv q := by
  cases h.steps hq with
  | received ha _ _ hlen =>
    have hu := ha.delivered hlen
    exact hu.inv_exits (readHandler_exits _ hu.isOpen)
  | readFailed ha => exact ha.inv_readFailed
  | wrote _ hw => exact h.wrote hw

theorem armed_start : new.start.Armed := by
  have hs : new.readBuffer.storage.length = 4096 := length_resized _ _
  have hstart : new.start = { new with reads := [⟨0, 4096⟩] } :=
    armed_asyncRead rfl rfl rfl rfl rfl hs
  rw [hstart]
  exact ⟨rfl, rfl, rfl, rfl, rfl, hs⟩

theorem reachable_new : system.Reachable ⟨new.start, none⟩ := system.reachable_start

theorem reachable_step (h : system.Reachable p) (hq : AuthSession.step p e = some q) :
    system.Reachable q :=
  h.step hq

theorem runFrom_step {t : Process} {es : List Event} (hq : AuthSession.step p e = some q)
    (h : system.runFrom q es = some t) : system.runFrom p (e :: es) = some t :=
  System.runFrom_cons.mpr ⟨q, hq, h⟩

theorem runFrom_one (hq : AuthSession.step p e = some q) : system.runFrom p [e] = some q :=
  runFrom_step hq rfl

theorem advance_of_step (h : step p e = some q) : advance p e = q := by
  rw [advance, h, Option.getD_some]

theorem inv_advance (hi : Inv p) (e : Event) : Inv (advance p e) := by
  unfold advance
  cases h : step p e with
  | none => exact hi
  | some q => exact hi.step h

theorem foldl_advance_of_runFrom {es : List Event} (h : system.runFrom p es = some q) :
    es.foldl advance p = q := by
  induction es generalizing p with
  | nil => exact Option.some.inj h
  | cons e es ih =>
    obtain ⟨m, hm, hq⟩ := System.runFrom_cons.mp h
    rw [List.foldl_cons, advance_of_step hm]
    exact ih hq

theorem inv_of_reachable (h : system.Reachable p) : Inv p := by
  have h0 : Inv system.start := armed_start.inv
  exact h.invariant h0 fun _ _ _ => Inv.step

end Steps
end Warhead.AuthSession
