import WarheadFix.Server.Arrivals

/-! When a session goes on listening. The one exit of `ReadHandler` that neither reads on nor
closes is that of an unknown command, which is also what an incomplete message has. -/

namespace Warhead.AuthSession
open Lib Hffix

/-- An open session has one read outstanding. -/
def Listening (p : Process) : Prop :=
  p.failure = none → p.session.isOpen = true → p.session.reads.length = 1

/-- What a read leaves in the buffer has a command with a handler, if it has the protocol. -/
def KnownCommand (p : Process) : Event → Prop
  | .readCompletion _ data =>
    let mem := p.session.overlay data
    protocolOf mem 0 = .ok FIX_PROTOCOL_SUPPORT → ∀ cmd,
      FixMessage.commandOf mem mem.length = .ok cmd → (statusFor cmd).isSome = true
  | _ => True

section Steps
variable {env : Env} {s : AuthSession} {p q : Process} {data : Bytes} {e : Event}

theorem knownCommand_iff (env : Env) (p : Process) (data : Bytes) :
    KnownCommand p (.readCompletion env data) ↔
      ∀ cmd, (p.session.delivered data).decision ≠ .ok (.unknownCommand cmd) := by
  constructor
  · intro h cmd hd
    obtain ⟨hp, hc, hr⟩ := decisionOf_unknownCommand.mp hd
    have hsome := h hp cmd hc
    rw [hr] at hsome
    exact absurd hsome nofun
  · intro h hp cmd hc
    rw [Option.isSome_iff_ne_none]
    exact fun hr => h cmd (decisionOf_unknownCommand.mpr ⟨hp, hc, hr⟩)

theorem listening_of_closed {f : Option (Fault Exn)} (h : s.closed = true) : Listening ⟨s, f⟩ := by
  intro _ ho
  exact absurd ho (by simp [Socket.isOpen_of_closed h])

theorem listening_of_armed {f : Option (Fault Exn)} (h : s.Armed) : Listening ⟨s, f⟩ :=
  fun _ _ => by rw [h.reads]; rfl

theorem closeSocket_closed (s : AuthSession) : s.closeSocket.closed = true :=
  Socket.closeSocket_closed

theorem listening_exits {x : AuthSession × Result Unit} (hu : s.Reading) (hx : Exits env s x) :
    Listening (.after x) ↔ ∀ cmd, s.decision ≠ .ok (.unknownCommand cmd) := by
  have other {d : Result Decision} (h : s.decision = d)
      (hd : ∀ cmd, d ≠ .ok (.unknownCommand cmd)) (hl : Listening (.after x)) :
      Listening (.after x) ↔ ∀ cmd, s.decision ≠ .ok (.unknownCommand cmd) :=
    ⟨fun _ cmd hc => hd cmd (h.symm.trans hc), fun _ => hl⟩
  cases hx with
  | fault h => exact other h nofun nofun
  | unsupportProtocol h => exact other h nofun (listening_of_closed (closeSocket_closed _))
  | unknownCommand h =>
    refine ⟨fun hl => ?_, fun hn => absurd h (hn _)⟩
    have hone := hl rfl hu.isOpen
    change s.reads.length = 1 at hone
    rw [hu.reads] at hone
    exact absurd hone nofun
  | wrongStatus h => exact other h nofun (listening_of_closed (closeSocket_closed _))
  | handlerFault h => exact other h nofun nofun
  | rejected h => exact other h nofun (listening_of_closed (closeSocket_closed _))
  | accepted h hr => exact other h nofun (listening_of_armed (hu.ran hr).accepted)

theorem listening_step (hi : Inv p) (hl : Listening p) (h : step p e = some q) :
    Listening q ↔ KnownCommand p e := by
  cases hi.steps h with
  | received ha _ _ hlen =>
    have hu := ha.delivered hlen
    rw [knownCommand_iff]
    exact listening_exits hu (readHandler_exits _ hu.isOpen)
  | readFailed => exact iff_of_true (listening_of_closed (closeSocket_closed _)) trivial
  | @wrote _ u hp hw he =>
    have hq : Listening ⟨{ p.session with toSocket := u }, none⟩ := by
      intro _ ho
      change u.reads.length = 1
      rw [hw.reads]
      refine hl hp ?_
      have hclosed := hw.stays hi.closing
      have hclosing := hw.closing
      simp only [Socket.isOpen, hclosed, hclosing] at ho ⊢
      exact ho
    refine iff_of_true hq ?_
    cases e with
    | readCompletion env data => exact absurd rfl (he env data)
    | _ => trivial

/-- A run leaves no session stranded exactly as long as every read of it leaves a known command
in the buffer. -/
theorem listening_iff (es : List Event) :
    system.Throughout Listening system.start es ↔ system.Along KnownCommand system.start es :=
  System.throughout_iff_along (fun _ _ _ => Inv.step) (fun _ _ _ => listening_step)
    armed_start.inv (listening_of_armed armed_start)

def fragment : Bytes := ascii "8=FIX.5.0" ++ [SOH]

theorem not_listening_fragment :
    ¬ system.Throughout Listening system.start [.readCompletion sampleEnv fragment] := by
  intro h
  have hu : (new.start.delivered fragment).Reading := armed_start.delivered (by decide)
  have hd : (new.start.delivered fragment).decision = .ok (.unknownCommand []) := by
    decide +kernel
  have hl := of_throughout h (armed_start.step_received sampleEnv fragment
    (by decide) (by decide))
  rw [readHandler_eq, hd] at hl
  have hone := hl rfl hu.isOpen
  change (new.start.delivered fragment).reads.length = 1 at hone
  rw [hu.reads] at hone
  exact absurd hone nofun

/-- Nobody reads from the socket and nobody closes it. -/
def Stranded (p : Process) : Prop :=
  p.failure = none ∧ p.session.isOpen = true ∧ p.session.reads = []

theorem stranded_forever {es : List Event} (hi : Inv p) (hs : Stranded p)
    (h : system.runFrom p es = some q) : Stranded q := by
  have hstep : ∀ p e q, Inv p ∧ Stranded p → step p e = some q → Inv q ∧ Stranded q := by
    rintro p e q ⟨hi, hp, ho, hr⟩ hq
    refine ⟨hi.step hq, ?_⟩
    cases hi.steps hq with
    | received ha => exact absurd (ha.reads.symm.trans hr) nofun
    | readFailed ha => exact absurd (ha.reads.symm.trans hr) nofun
    | wrote _ hw =>
      refine ⟨rfl, ?_, hw.reads.trans hr⟩
      have hclosed := hw.stays hi.closing
      have hclosing := hw.closing
      simp only [Socket.isOpen, hclosed, hclosing] at ho ⊢
      exact ho
  exact (System.runFrom_invariant (S := system) hstep ⟨hi, hs⟩ h).2

end Steps
end Warhead.AuthSession
