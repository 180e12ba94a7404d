import WarheadFix.Server.Runs
import WarheadFix.Shared.ReaderFraming

/-! What arrives at a session that waits: some bytes, and as a special case exactly one whole
message of the type that is due. -/

namespace Warhead.AuthSession
open Lib Hffix

/-- The handler of the key accepts the message in this storage, and a logon is answered. -/
def Accepts (key : Bytes) (env : Env) (mem : Bytes) : Prop :=
  FixMessage.readingFor key env.shouldLog mem mem.length = .ok .read ∧
    (key = ascii "A" → (FixMessage.reply env mem).isOk = true)

instance (key : Bytes) (env : Env) (mem : Bytes) : Decidable (Accepts key env mem) := by
  unfold Accepts
  infer_instance

def sampleEnv : Env := ⟨false, ⟨2024, 1, 31, 12, 30, 59, 250⟩, List.replicate 242 0⟩

def sampleLogon : Frame := .bare 65 (by decide)

def sampleOrder : Frame := .bare 68 (by decide)

section Stability

theorem stable_protocolOf (rpos : Nat) : Stable fun mem => protocolOf mem rpos := by
  unfold protocolOf
  exact (Stable.span _ _).bind fun _ => .const _

theorem stable_decisionOf (status : AuthStatus) (rpos size : Nat) :
    Stable fun mem => decisionOf status rpos size mem := by
  unfold decisionOf
  refine (stable_protocolOf rpos).bind fun protocol => (Stable.const _).ite
    ((FixMessage.stable_commandOf size).bind fun cmd => ?_)
  cases statusFor cmd with
  | none => exact .const _
  | some required => exact .const _

theorem stable_readingFor (key : Bytes) (shouldLog : Bool) (size : Nat) :
    Stable fun mem => FixMessage.readingFor key shouldLog mem size := by
  unfold FixMessage.readingFor
  split_ifs
  · exact FixMessage.stable_logonReading shouldLog size
  · exact FixMessage.stable_newOrderSingleReading shouldLog size

end Stability

theorem reply_error {env : Env} {mem : Bytes} {f : Fault Exn}
    (h : FixMessage.reply env mem = .error f) (mem' : Bytes) :
    FixMessage.reply env mem' = .error f := by
  unfold FixMessage.reply at h ⊢
  cases ht : FixMessage.replyText env with
  | error g =>
    rw [ht] at h
    exact h
  | ok text =>
    rw [ht] at h
    change (if _ then _ else _) = _ at h
    change (if _ then _ else _) = _
    split_ifs at h ⊢
    exact h

theorem accepts_in_front {key mem : Bytes} {env : Env} (data : Bytes) (hp : data <+: mem)
    (hread : FixMessage.readingFor key env.shouldLog data mem.length = .ok .read)
    (hreply : key = ascii "A" → (FixMessage.reply env data).isOk = true) :
    Accepts key env mem := by
  refine ⟨?_, fun hkey => ?_⟩
  · rw [← hread]
    exact stable_readingFor key env.shouldLog mem.length hp (by simp [hread])
  · have hok := hreply hkey
    cases hmem : FixMessage.reply env mem with
    | ok packet => rfl
    | error f =>
      rw [reply_error hmem data] at hok
      exact hok

section Decisions
variable {f : Frame} {tail : Bytes} {s : AuthSession} {status : AuthStatus} {size : Nat}

theorem protocolOf_fixText (f : Frame) (tail : Bytes) :
    protocolOf (fixText f ++ tail) 0 = .ok FIX_PROTOCOL_SUPPORT := by
  have hdrop : (fixText f ++ tail).drop 2 = ascii "FIX.5.0" ++ (SOH :: (ascii "9=" ++ (f.digits ++
      SOH :: (f.body ++ (Frame.trailer (headOf f ++ f.body) ++ tail))))) := by
    rw [fixText_append, headOf_eq]
    simp only [List.append_assoc, List.cons_append, List.nil_append]
    rfl
  have hspan : (span (fixText f ++ tail) (0 + 2 : Nat) (0 + 9 : Nat) : Result Bytes) =
      .ok (ascii "FIX.5.0") := span_of_drop _ hdrop rfl
  unfold protocolOf
  rw [hspan]
  rfl

theorem decisionOf_fixText (hs : statusFor f.msgType = some status)
    (hle : (fixText f).length ≤ size) (hsize : size < 2 ^ 63) :
    decisionOf status 0 size (fixText f ++ tail) = .ok (.run f.msgType) :=
  decisionOf_run.mpr ⟨protocolOf_fixText f tail, commandOf_fixText hle hsize, hs⟩

end Decisions

theorem of_throughout {P : Process → Prop} {p q : Process} {e : Event}
    (h : system.Throughout P p [e]) (hq : step p e = some q) : P q :=
  (h.2 q hq).head

section Arrives
variable {env : Env} {s : AuthSession} {key : Bytes} {x : AuthSession × Result Unit}

theorem Armed.step_received (h : s.Armed) (env : Env) (data : Bytes) (hne : data ≠ [])
    (hlen : data.length ≤ 4096) :
    step ⟨s, none⟩ (.readCompletion env data) =
      some (.after ((s.delivered data).readHandler env)) := by
  have hr : s.reads = [⟨0, 4096⟩] := h.reads
  simp only [step, hr, Option.isSome_none, Bool.false_eq_true, if_false]
  rw [if_pos ⟨hne, hlen⟩, show completeRead s ⟨0, 4096⟩ env data = _ from h.completeRead_eq env data]

theorem Exits.handled (hx : Exits env s x) :
    (x.1.handled = s.handled ∧ ∀ key, s.decision ≠ .ok (.run key)) ∨
      ∃ key result, s.decision = .ok (.run key) ∧
        x.1.handled = s.handled ++ [⟨key, s.readBuffer, result⟩] := by
  have hran {key : Bytes} {y : AuthSession × Result Bool} (hr : Ran env s key y) :
      ∃ result, y.1.handled = s.handled ++ [⟨key, s.readBuffer, result⟩] := by
    cases hr <;> exact ⟨_, rfl⟩
  have hnone {d : Result Decision} (h : s.decision = d) (hd : ∀ key, d ≠ .ok (.run key)) :
      ∀ key, s.decision ≠ .ok (.run key) := fun key hk => hd key (h.symm.trans hk)
  cases hx with
  | fault h => exact .inl ⟨rfl, hnone h nofun⟩
  | unsupportProtocol h => exact .inl ⟨rfl, hnone h nofun⟩
  | unknownCommand h => exact .inl ⟨rfl, hnone h nofun⟩
  | wrongStatus h => exact .inl ⟨rfl, hnone h nofun⟩
  | handlerFault h hr => exact .inr ⟨_, (hran hr).choose, h, (hran hr).choose_spec⟩
  | rejected h hr => exact .inr ⟨_, (hran hr).choose, h, (hran hr).choose_spec⟩
  | accepted h hr => exact .inr ⟨_, (hran hr).choose, h, (hran hr).choose_spec⟩

theorem after_session (x : AuthSession × Result Unit) : (Process.after x).session = x.1 := by
  rcases x with ⟨s, f | u⟩ <;> rfl

theorem active_delivered (s : AuthSession) (data : Bytes) :
    (s.delivered data).readBuffer.active = data := by
  rw [MessageBuffer.active_of_rpos_zero rfl]
  exact List.take_left

theorem Exits.of_accepts (hx : Exits env s x) (hd : s.decision = .ok (.run key))
    (ha : Accepts key env s.readBuffer.storage) :
    ∃ t, Ran env s key (t, .ok true) ∧ x = (t.resetReadBuffer.asyncRead, .ok ()) := by
  have hread : s.reading key env = .ok .read := ha.1
  cases hx with
  | fault h => exact absurd (h.symm.trans hd) nofun
  | unsupportProtocol h => exact absurd (h.symm.trans hd) nofun
  | unknownCommand h => exact absurd (h.symm.trans hd) nofun
  | wrongStatus h => exact absurd (h.symm.trans hd) nofun
  | handlerFault h hr =>
    obtain rfl := Decision.run.inj (Except.ok.inj (h.symm.trans hd))
    cases hr with
    | fault h' => exact absurd (h'.symm.trans hread) nofun
    | replyFault _ h' => exact absurd (ha.2 rfl) (by simp [h', Except.isOk, Except.toBool])
  | rejected h hr =>
    obtain rfl := Decision.run.inj (Except.ok.inj (h.symm.trans hd))
    cases hr with
    | failed h' => exact absurd (h'.symm.trans hread) (by simp)
  | accepted h hr =>
    obtain rfl := Decision.run.inj (Except.ok.inj (h.symm.trans hd))
    exact ⟨_, hr, rfl⟩

theorem Ran.accepted_eq {t : AuthSession} (hs : statusFor key = some s.status)
    (hr : Ran env s key (t, .ok true)) :
    t.status = .authed ∧ t.readBuffer = s.readBuffer ∧
      t.handled = s.handled ++ [⟨key, s.readBuffer, .ok true⟩] := by
  cases hr with
  | order =>
    rcases statusFor_eq_some hs with ⟨h, -⟩ | ⟨-, h⟩
    · exact absurd h (by decide)
    · exact ⟨h, rfl, rfl⟩
  | logon => exact ⟨rfl, rfl, rfl⟩

theorem Armed.decision_fixText {f : Frame} (h : s.Armed)
    (hs : statusFor f.msgType = some s.status) (hle : (fixText f).length ≤ 4096) :
    (s.delivered (fixText f)).decision = .ok (.run f.msgType) := by
  unfold decision
  change decisionOf s.status 0 (s.overlay (fixText f)).length (s.overlay (fixText f)) = _
  rw [h.length_overlay hle]
  exact decisionOf_fixText hs hle (by decide)

theorem Armed.arrives {f : Frame} (h : s.Armed) (env : Env) (hs : statusFor f.msgType = some s.status)
    (hle : (fixText f).length ≤ 4096) (ha : Accepts f.msgType env (s.overlay (fixText f))) :
    ∃ t, step ⟨s, none⟩ (.readCompletion env (fixText f)) = some ⟨t, none⟩ ∧ t.Armed ∧
      t.status = .authed ∧ t.readBuffer.storage = s.overlay (fixText f) ∧
      t.handled = s.handled ++ [⟨f.msgType, (s.delivered (fixText f)).readBuffer, .ok true⟩] := by
  have hu := h.delivered hle
  have hd := h.decision_fixText hs hle
  obtain ⟨t, hr, hx⟩ := (readHandler_exits env hu.isOpen).of_accepts hd ha
  have hs' : statusFor f.msgType = some (s.delivered (fixText f)).status := hs
  obtain ⟨hstatus, hbuffer, hhandled⟩ := hr.accepted_eq hs'
  have ht := hu.ran hr
  refine ⟨_, by rw [h.step_received env _ (fixText_ne_nil f) hle, hx]; rfl, ht.accepted, ?_⟩
  rw [ht.asyncRead_eq]
  refine ⟨hstatus, ?_, hhandled⟩
  change t.readBuffer.storage = _
  rw [hbuffer]
  rfl

end Arrives
end Warhead.AuthSession
