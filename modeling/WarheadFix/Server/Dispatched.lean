import WarheadFix.Server.Arrivals
import WarheadFix.Shared.WellFormed

/-! Which messages are dispatched: those that the protocol check and the reader accept, so
well-formed ones only as far as the places that neither looks at are right. -/

namespace Warhead.AuthSession
open Lib Hffix

/-- Every handler has run on bytes that begin with a well-formed message. -/
def WellHandled (p : Process) : Prop := ∀ r ∈ p.session.handled, ∃ f, fixText f <+: r.received

/-- What a read brings has its unchecked places right, if the checks on the buffer find the
message that is due. -/
def UncheckedRight (p : Process) : Event → Prop
  | .readCompletion _ data =>
    let mem := p.session.overlay data
    protocolOf mem 0 = .ok FIX_PROTOCOL_SUPPORT → ∀ key,
      FixMessage.commandOf mem mem.length = .ok key → statusFor key = some p.session.status →
        PlacesRight data
  | _ => True

section Steps
variable {env : Env} {s : AuthSession} {p q : Process} {key data : Bytes} {e : Event}

theorem uncheckedRight_iff (env : Env) (p : Process) (data : Bytes) :
    UncheckedRight p (.readCompletion env data) ↔
      ∀ key, (p.session.delivered data).decision = .ok (.run key) → PlacesRight data := by
  constructor
  · intro h key hd
    obtain ⟨hp, hc, hs⟩ := decisionOf_run.mp hd
    exact h hp key hc hs
  · exact fun h hp key hc hs => h key (decisionOf_run.mpr ⟨hp, hc, hs⟩)

theorem take_of_protocolOf {mem : Bytes} (hlen : 9 ≤ mem.length)
    (h : protocolOf mem 0 = .ok FIX_PROTOCOL_SUPPORT) :
    (mem.drop 2).take 7 = ascii "FIX.5.0" := by
  rw [protocolOf_zero hlen] at h
  split_ifs at h
  have htext : headerText mem = ascii "FIX.5.0" := Except.ok.inj h
  have hbegins : ascii "FIX.5.0" <+: (mem.drop 2).take 7 := htext ▸ List.takeWhile_prefix _
  refine (hbegins.eq_of_length ?_).symm
  rw [List.length_take, List.length_drop]
  change 7 = _
  omega

theorem Armed.wellFormed_iff (ha : s.Armed) (hlen : data.length ≤ 4096)
    (hd : (s.delivered data).decision = .ok (.run key)) :
    (∃ f, fixText f <+: data) ↔ PlacesRight data := by
  refine ⟨fun ⟨f, hf⟩ => placesRight_of_fixText hf, fun hright => ?_⟩
  obtain ⟨hp, hc, hs⟩ := decisionOf_run.mp hd
  have hmem : (s.delivered data).readBuffer.storage.length = 4096 := ha.length_overlay hlen
  have hletter : ∃ c, key = [c] ∧ c ≠ SOH := by
    rcases statusFor_eq_some hs with ⟨rfl, -⟩ | ⟨rfl, -⟩
    · exact ⟨65, rfl, by decide⟩
    · exact ⟨68, rfl, by decide⟩
  obtain ⟨c, rfl, hsoh⟩ := hletter
  obtain ⟨q, digits, checksum, e, -, hlayout, hspan⟩ :=
    FixMessage.commandOf_ok hc (List.cons_ne_nil _ _)
  have hten : 9 ≤ data.length := by
    obtain ⟨-, h9, -⟩ := hright
    have := (List.getElem?_eq_some_iff.mp h9).1
    omega
  have hprotocol := take_of_protocolOf (by rw [hmem]; decide) hp
  change ((data ++ _).drop 2).take 7 = _ at hprotocol
  rw [List.drop_append_of_le_length (by omega), List.take_append_of_le_length
    (by rw [List.length_drop]; omega)] at hprotocol
  refine exists_fixText hlayout hprotocol ?_ hspan hsoh hright
  exact lt_of_eq_of_lt hmem (by decide)

theorem wellHandled_step (hi : Inv p) (hw : WellHandled p) (h : step p e = some q) :
    WellHandled q ↔ UncheckedRight p e := by
  cases hi.steps h with
  | @received env data ha _ _ hlen =>
    have hu := ha.delivered hlen
    rw [uncheckedRight_iff]
    unfold WellHandled
    rw [after_session]
    rcases (readHandler_exits env hu.isOpen).handled with ⟨hsame, hnone⟩ | ⟨key, result, hd, hone⟩
    · rw [hsame]
      exact iff_of_true hw fun key hd => absurd hd (hnone key)
    · have hreceived : HandlerRun.received ⟨key, (p.session.delivered data).readBuffer, result⟩ =
          data := active_delivered p.session data
      have hsame : ∀ r ∈ (p.session.delivered data).handled, ∃ f, fixText f <+: r.received := hw
      rw [hone, List.forall_mem_append, and_iff_right hsame, List.forall_mem_singleton, hreceived,
        ha.wellFormed_iff hlen hd]
      exact ⟨fun hright _ _ => hright, fun hall => hall key hd⟩
  | readFailed => exact iff_of_true hw trivial
  | wrote _ _ he =>
    refine iff_of_true hw ?_
    cases e with
    | readCompletion env data => exact absurd rfl (he env data)
    | _ => trivial

/-- A run dispatches well-formed messages only, exactly as long as the unchecked places of
every message that the checks accept are right. -/
theorem wellHandled_iff (es : List Event) :
    system.Throughout WellHandled system.start es ↔
      system.Along UncheckedRight system.start es := by
  have hstart : WellHandled system.start := fun _ => nofun
  exact System.throughout_iff_along (fun _ _ _ => Inv.step) (fun _ _ _ => wellHandled_step)
    armed_start.inv hstart

/-- A message of another version, with a CheckSum that is not its sum. -/
def otherVersion : Bytes :=
  ascii "8=FIX.5.0SP1" ++ SOH :: ascii "9=5" ++ SOH :: ascii "35=A" ++ SOH :: ascii "10=000" ++
    [SOH]

theorem handled_otherVersion :
    ¬ system.Throughout WellHandled system.start [.readCompletion sampleEnv otherVersion] := by
  intro h
  have hu : (new.start.delivered otherVersion).Reading := armed_start.delivered (by decide)
  have hw := of_throughout h (armed_start.step_received sampleEnv otherVersion
    (by decide) (by decide))
  have hd : (new.start.delivered otherVersion).decision = .ok (.run (ascii "A")) := by
    decide +kernel
  unfold WellHandled at hw
  rw [after_session] at hw
  rcases (readHandler_exits sampleEnv hu.isOpen).handled with ⟨-, hnone⟩ | ⟨key, result, -, hone⟩
  · exact hnone _ hd
  · rw [hone] at hw
    obtain ⟨f, hf⟩ := hw _ (List.mem_append_right _ (List.mem_singleton_self _))
    change fixText f <+: (new.start.delivered otherVersion).readBuffer.active at hf
    rw [active_delivered] at hf
    exact absurd (placesRight_of_fixText hf) (by decide)

end Steps
end Warhead.AuthSession
