import WarheadFix.Server.Arrivals

/-! Which reads throw. The seven characters of the protocol are read as UTF-8 text before
anything is known of them; nothing after that check throws. -/

namespace Warhead.AuthSession
open Lib Hffix

def NothingThrown (p : Process) : Prop := ∀ e, p.failure ≠ some (.thrown e)

def validHeader (mem : Bytes) : Bool := Utf8.isValid (headerText mem)

/-- What a read leaves in the buffer has a valid header. -/
def ValidHeader (p : Process) : Event → Prop
  | .readCompletion _ data => validHeader (p.session.overlay data) = true
  | _ => True

section Decisions
variable {status : AuthStatus} {mem : Bytes} {size : Nat}

theorem unthrown_decisionOf (hlen : 9 ≤ mem.length) :
    Unthrown (decisionOf status 0 size mem) ↔ validHeader mem = true := by
  unfold decisionOf validHeader
  rw [protocolOf_zero hlen]
  split_ifs with hv
  · refine iff_of_true ?_ hv
    change Unthrown (if _ then _ else _)
    split_ifs
    · exact .ok _
    · refine (FixMessage.unthrown_commandOf mem size).bind fun cmd _ => ?_
      cases statusFor cmd with
      | none => exact .ok _
      | some required => exact .ok _
  · exact iff_of_false (fun h => h _ rfl) hv

end Decisions

section Steps
variable {env : Env} {s : AuthSession} {p q : Process} {e : Event}

theorem nothingThrown_of_none (s : AuthSession) : NothingThrown ⟨s, none⟩ := fun _ => nofun

theorem nothingThrown_exits {x : AuthSession × Result Unit} (hu : s.Reading)
    (hx : Exits env s x) :
    NothingThrown (.after x) ↔ validHeader s.readBuffer.storage = true := by
  have hiff : Unthrown s.decision ↔ validHeader s.readBuffer.storage = true := by
    unfold decision
    rw [hu.rpos]
    exact unthrown_decisionOf (by rw [hu.storage]; decide)
  have decided {d : Decision} (h : s.decision = .ok d) (hn : NothingThrown (.after x)) :
      NothingThrown (.after x) ↔ validHeader s.readBuffer.storage = true :=
    iff_of_true hn (hiff.mp (h ▸ Unthrown.ok d))
  cases hx with
  | @fault f h =>
    rw [← hiff, h]
    constructor
    · exact fun hn e he => hn e (congrArg some (Except.error.inj he))
    · exact fun hn e he => hn e (congrArg Except.error (Option.some.inj he))
  | unsupportProtocol h => exact decided h (nothingThrown_of_none _)
  | unknownCommand h => exact decided h (nothingThrown_of_none _)
  | wrongStatus h => exact decided h (nothingThrown_of_none _)
  | handlerFault h hr =>
    refine decided h fun e he => ?_
    cases hr with
    | fault _ hf => exact hf e (Option.some.inj he)
    | replyFault _ hreply =>
      refine FixMessage.unthrown_reply env _ e (hreply.trans ?_)
      exact congrArg Except.error (Option.some.inj he)
  | rejected h => exact decided h (nothingThrown_of_none _)
  | accepted h => exact decided h (nothingThrown_of_none _)

theorem nothingThrown_step (hi : Inv p) (h : step p e = some q) :
    NothingThrown q ↔ ValidHeader p e := by
  cases hi.steps h with
  | received ha _ _ hlen =>
    have hu := ha.delivered hlen
    exact nothingThrown_exits hu (readHandler_exits _ hu.isOpen)
  | readFailed => exact iff_of_true (nothingThrown_of_none _) trivial
  | wrote _ _ he =>
    refine iff_of_true (nothingThrown_of_none _) ?_
    cases e with
    | readCompletion env data => exact absurd rfl (he env data)
    | _ => trivial

/-- A run is free of exceptions exactly as long as every read of it leaves a valid header in the
buffer. -/
theorem nothingThrown_iff (es : List Event) :
    system.Throughout NothingThrown system.start es ↔
      system.Along ValidHeader system.start es := by
  have hstep : ∀ p e q, Inv p → NothingThrown p → step p e = some q →
      (NothingThrown q ↔ ValidHeader p e) := fun _ _ _ hi _ => nothingThrown_step hi
  have hstart : NothingThrown system.start := nothingThrown_of_none new.start
  exact System.throughout_iff_along (fun _ _ _ => Inv.step) hstep armed_start.inv hstart

theorem after_of_fault {f : Fault Exn} (h : s.decision = .error f) :
    Process.after (s.readHandler env) = ⟨s, some f⟩ := by
  rw [readHandler_eq, h]
  rfl

def brokenHeader : Bytes := [56, 61, 255]

theorem thrown_brokenHeader :
    ¬ system.Throughout NothingThrown system.start [.readCompletion sampleEnv brokenHeader] := by
  intro h
  have hn := of_throughout h (armed_start.step_received sampleEnv brokenHeader
    (by decide) (by decide))
  have hd : (new.start.delivered brokenHeader).decision =
      .error (.thrown (.invalidValue "string" [255])) := by
    decide +kernel
  exact hn _ (congrArg Process.failure (after_of_fault hd))

end Steps
end Warhead.AuthSession
