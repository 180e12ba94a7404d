import WarheadFix.Lib.Gate
import WarheadFix.Server.Arrivals

/-! The authentication gate. A session is a gate whose first call is the logon handler and
whose later calls are the order handler; the second look at the type of a message finds
what the first one found, in every run. -/

namespace Warhead

def LogLine.rechecks : LogLine → Bool
  | .invalidCommand _ | .invalidFixMessage _ | .isNotLogonType _ | .isNotNewOrderSingleType _ =>
    true
  | _ => false

def HandlerRun.accepted (r : HandlerRun) : Bool :=
  match r.result with
  | .ok accepted => accepted
  | .error _ => false

namespace AuthSession
open Lib Hffix

def gate (p : Process) : Gate Bytes where
  trace := p.session.handled.map fun r => (r.key, r.accepted)
  opened := p.session.status == .authed
  shut := p.session.closed || p.failure.isSome

/-- Every handler has run on a message of its own type, and no later check of a message
found anything else. -/
structure Settled (s : AuthSession) : Prop where
  command : ∀ r ∈ s.handled,
    FixMessage.commandOf r.buffer.storage r.buffer.storage.length = .ok r.key
  log : ∀ line ∈ s.log, line.rechecks = false

section Gate
variable {env : Env} {s t : AuthSession} {p q : Process} {key : Bytes} {e : Event}

theorem gate_closeSocket (s : AuthSession) :
    gate ⟨s.closeSocket, none⟩ = { gate ⟨s, none⟩ with shut := true } := by
  simp [gate, closeSocket, Socket.closeSocket_closed]

theorem gate_call {accepted opens : Bool} {r : HandlerRun} {f : Option (Fault Exn)}
    (hu : s.Reading) (hs : statusFor key = some s.status) (hkey : r.key = key)
    (haccepted : r.accepted = accepted) (hopens : accepted = true → opens = true)
    (hhandled : t.handled = s.handled ++ [r])
    (hstatus : (t.status == .authed) = (s.status == .authed || opens))
    (hshut : (t.closed || f.isSome) = !accepted) :
    (Gate.system (ascii "A") (ascii "D")).step (gate ⟨s, none⟩) (.call key accepted opens) =
      some (gate ⟨t, f⟩) := by
  have hdue : key = (gate ⟨s, none⟩).due (ascii "A") (ascii "D") := by
    rcases statusFor_eq_some hs with ⟨rfl, hn⟩ | ⟨rfl, ha⟩
    · simp [gate, Gate.due, hn]
    · simp [gate, Gate.due, ha]
  have hopen : (gate ⟨s, none⟩).shut = false := by simp [gate, hu.closed]
  simp only [Gate.system, Gate.step]
  rw [if_pos ⟨hopen, hdue, hopens⟩]
  simp only [gate, hhandled, hstatus, hshut, hkey, haccepted, List.map_append, List.map_cons,
    List.map_nil]

theorem gate_exits {x : AuthSession × Result Unit} (hu : s.Reading) (hx : Exits env s x) :
    gate (.after x) = gate ⟨s, none⟩ ∨
      ∃ d, (Gate.system (ascii "A") (ascii "D")).step (gate ⟨s, none⟩) d =
        some (gate (.after x)) := by
  cases hx with
  | fault => exact .inr ⟨.shut, by simp [Gate.system, Gate.step, gate, Process.after]⟩
  | unsupportProtocol =>
    refine .inr ⟨.shut, ?_⟩
    simp only [Process.after, gate_closeSocket]
    rfl
  | unknownCommand => exact .inl rfl
  | wrongStatus =>
    refine .inr ⟨.shut, ?_⟩
    simp only [Process.after, gate_closeSocket]
    rfl
  | handlerFault h hr =>
    obtain ⟨-, -, hs⟩ := decisionOf_run.mp h
    cases hr with
    | fault =>
      exact .inr ⟨.call _ false false, gate_call hu hs rfl rfl Bool.false_ne_true.elim rfl (by simp [noteRun])
        (by simp)⟩
    | replyFault =>
      exact .inr ⟨.call _ false true, gate_call hu hs rfl rfl Bool.false_ne_true.elim rfl (by simp [noteRun])
        (by simp)⟩
  | @rejected key _ h hr =>
    obtain ⟨-, -, hs⟩ := decisionOf_run.mp h
    cases hr with
    | failed =>
      refine .inr ⟨.call key false false, ?_⟩
      refine gate_call (r := ⟨key, s.readBuffer, .ok false⟩) hu hs rfl rfl Bool.false_ne_true.elim rfl ?_ ?_
      · simp [closeSocket, noteRun, logErrors]
      · simp [closeSocket, Socket.closeSocket_closed]
  | accepted h hr =>
    obtain ⟨-, -, hs⟩ := decisionOf_run.mp h
    have hopen := (hu.ran hr).accepted.closed
    rw [(hu.ran hr).asyncRead_eq] at hopen ⊢
    cases hr with
    | order =>
      refine .inr ⟨.call _ true true, gate_call hu hs rfl rfl (fun _ => rfl) rfl ?_ ?_⟩
      · rcases statusFor_eq_some hs with ⟨h', -⟩ | ⟨-, ha⟩
        · exact absurd h' (by decide)
        · simp [noteRun, ha]
      · simpa using hopen
    | logon =>
      refine .inr ⟨.call _ true true, gate_call hu hs rfl rfl (fun _ => rfl) rfl ?_ ?_⟩
      · simp [noteRun]
      · simpa using hopen

theorem gate_step (hi : Inv p) (h : step p e = some q) :
    gate q = gate p ∨ ∃ d, (Gate.system (ascii "A") (ascii "D")).step (gate p) d =
      some (gate q) := by
  obtain ⟨s, failure⟩ := p
  cases hi.steps h with
  | received ha hp _ hlen =>
    obtain rfl : failure = none := hp
    have hu := ha.delivered hlen
    exact gate_exits (s := s.delivered _) hu (readHandler_exits _ hu.isOpen)
  | readFailed _ hp =>
    obtain rfl : failure = none := hp
    refine .inr ⟨.shut, ?_⟩
    rw [gate_closeSocket]
    rfl
  | wrote hp hw =>
    obtain rfl : failure = none := hp
    exact .inl (by simp [gate, hw.stays hi.closing])

/-- A session is a gate for a logon and then orders. -/
def gateSimulation : System.Simulation system (Gate.system (ascii "A") (ascii "D")) where
  view := gate
  inv := Inv
  inv_start := armed_start.inv
  inv_step _ _ _ := Inv.step
  view_start := rfl
  matched _ _ _ := gate_step

end Gate

section Settled
variable {env : Env} {s : AuthSession} {p q : Process} {key : Bytes} {e : Event}

theorem Settled.logErrors (h : s.Settled) {line : LogLine} (hl : line.rechecks = false) :
    (s.logErrors [line]).Settled :=
  ⟨h.command, List.forall_mem_append.mpr ⟨h.log, List.forall_mem_singleton.mpr hl⟩⟩

theorem Settled.noteRun (h : s.Settled) {b : MessageBuffer} {result : Result Bool}
    (hc : FixMessage.commandOf b.storage b.storage.length = .ok key) :
    (s.noteRun ⟨key, b, result⟩).Settled :=
  ⟨List.forall_mem_append.mpr ⟨h.command, List.forall_mem_singleton.mpr hc⟩, h.log⟩

theorem Settled.of_eq {t : AuthSession} (h : s.Settled) (hh : t.handled = s.handled)
    (hl : t.log = s.log) : t.Settled :=
  ⟨by rw [hh]; exact h.command, by rw [hl]; exact h.log⟩

theorem Settled.ran {x : AuthSession × Result Bool} (h : s.Settled)
    (hd : s.decision = .ok (.run key)) (hr : Ran env s key x) : x.1.Settled := by
  obtain ⟨-, hc, -⟩ := decisionOf_run.mp hd
  cases hr with
  | fault => exact h.noteRun hc
  | failed => exact (h.logErrors rfl).noteRun hc
  | order => exact h.noteRun hc
  | replyFault => exact (h.of_eq (t := { s with status := .authed }) rfl rfl).noteRun hc
  | @logon packet =>
    exact (h.of_eq (t := { s with
      status := .authed, toSocket := s.toSocket.queuePacket packet }) rfl rfl).noteRun hc

theorem Settled.exits {x : AuthSession × Result Unit} (h : s.Settled) (hx : Exits env s x) :
    x.1.Settled := by
  cases hx with
  | fault => exact h
  | unsupportProtocol => exact (h.logErrors rfl).of_eq rfl rfl
  | unknownCommand => exact h.logErrors rfl
  | wrongStatus => exact h.of_eq rfl rfl
  | handlerFault hd hr => exact h.ran hd hr
  | rejected hd hr => exact (h.ran hd hr).of_eq rfl rfl
  | accepted hd hr => exact (h.ran hd hr).of_eq rfl rfl

theorem settled_of_reachable (h : system.Reachable p) : p.session.Settled := by
  have hstep : ∀ p e q, Inv p ∧ p.session.Settled → step p e = some q →
      Inv q ∧ q.session.Settled := by
    rintro p e q ⟨hi, hs⟩ hq
    refine ⟨hi.step hq, ?_⟩
    cases hi.steps hq with
    | received ha _ _ hlen =>
      rw [after_session]
      exact (hs.of_eq (t := p.session.delivered _) rfl rfl).exits
        (readHandler_exits _ (ha.isOpen_delivered _))
    | readFailed => exact hs.of_eq rfl rfl
    | wrote => exact hs.of_eq rfl rfl
  exact (h.invariant (S := system) ⟨armed_start.inv, nofun, nofun⟩ hstep).2

theorem Exits.authed {x : AuthSession × Result Unit} (hx : Exits env s x)
    (h : s.status = .authed) : x.1.status = .authed := by
  have hran : ∀ {key : Bytes} {y : AuthSession × Result Bool}, Ran env s key y →
      y.1.status = .authed := by
    intro key y hr
    cases hr with
    | fault => exact h
    | failed => exact h
    | order => exact h
    | replyFault => rfl
    | logon => rfl
  cases hx with
  | fault => exact h
  | unsupportProtocol => exact h
  | unknownCommand => exact h
  | wrongStatus => exact h
  | handlerFault _ hr => exact hran hr
  | rejected _ hr => exact hran hr
  | accepted _ hr => exact hran hr

theorem Inv.authed_step (hi : Inv p) (hq : AuthSession.step p e = some q)
    (h : p.session.status = .authed) :
    q.session.status = .authed := by
  cases hi.steps hq with
  | received ha _ _ hlen =>
    rw [after_session]
    exact (readHandler_exits _ (ha.isOpen_delivered _)).authed h
  | readFailed => exact h
  | wrote => exact h

theorem Inv.closed_step (hi : Inv p) (hq : AuthSession.step p e = some q)
    (h : p.session.closed = true) :
    q.session.closed = true ∧ q.session.handled = p.session.handled ∧
      q.session.queued = p.session.queued := by
  cases hi.steps hq with
  | received ha => exact absurd (h.symm.trans ha.closed) nofun
  | readFailed ha => exact absurd (h.symm.trans ha.closed) nofun
  | wrote _ hw => exact ⟨hw.closed h, rfl, hw.queued⟩

theorem accepted_eq_true {r : HandlerRun} : r.accepted = true ↔ r.result = .ok true := by
  unfold HandlerRun.accepted
  rcases r.result with f | b <;> simp

/-- The gate, as a session and its next steps show it. -/
structure Gated (p : Process) : Prop where
  keys : ∃ n, p.session.handled.map HandlerRun.key <+:
    ascii "A" :: List.replicate n (ascii "D")
  accepted : ∀ r rs, p.session.handled = r :: rs → rs ≠ [] → r.result = .ok true
  settled : p.session.Settled
  authed : ∀ e q, step p e = some q → p.session.status = .authed → q.session.status = .authed
  closed : ∀ e q, step p e = some q → p.session.closed = true →
    q.session.closed = true ∧ q.session.handled = p.session.handled ∧
      q.session.queued = p.session.queued

/-- In every run the handlers are a logon and then orders, orders only if the logon was
accepted, each on a message of its own type; the status only goes forward, and a closed
session handles and queues nothing. -/
theorem authentication_gate (h : system.Reachable p) : Gated p := by
  have hi := inv_of_reachable h
  have hordered := Gate.ordered_of_reachable (gateSimulation.reachable h)
  constructor
  · obtain ⟨n, hn⟩ := hordered.keys
    refine ⟨n, ?_⟩
    change (p.session.handled.map fun r => (r.key, r.accepted)).map Prod.fst <+: _ at hn
    rwa [List.map_map] at hn
  · intro r rs hhandled hne
    have htrace : (gate p).trace =
        (r.key, r.accepted) :: rs.map fun r => (r.key, r.accepted) := by
      rw [gate, hhandled, List.map_cons]
    exact accepted_eq_true.mp ((hordered _ _ htrace).2.2 (by simpa using hne))
  · exact settled_of_reachable h
  · exact fun _ _ hq => hi.authed_step hq
  · exact fun _ _ hq => hi.closed_step hq

def afterLogon : Process :=
  .after ((new.start.delivered (fixText sampleLogon)).readHandler sampleEnv)

theorem afterLogon_eq : ∃ t, afterLogon = ⟨t, none⟩ ∧
    t.handled.map HandlerRun.key = [ascii "A"] ∧ system.Reachable ⟨t, none⟩ := by
  obtain ⟨t, ht, -, -, -, hhandled⟩ := armed_start.arrives (f := sampleLogon) sampleEnv
    rfl (by decide) (by decide +kernel)
  have hstep := armed_start.step_received sampleEnv (fixText sampleLogon)
    (by decide) (by decide)
  refine ⟨t, Option.some.inj (hstep.symm.trans ht), ?_, reachable_step reachable_new ht⟩
  rw [hhandled]
  rfl

theorem authentication_gate_afterLogon :
    afterLogon.session.handled.map HandlerRun.key = [ascii "A"] ∧ Gated afterLogon := by
  obtain ⟨t, hafter, hkeys, hreach⟩ := afterLogon_eq
  rw [hafter]
  exact ⟨hkeys, authentication_gate hreach⟩

end Settled
end AuthSession
end Warhead
