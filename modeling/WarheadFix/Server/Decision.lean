import WarheadFix.Server.AuthSession
import WarheadFix.Shared.TestMessages
import WarheadFix.Shared.ReaderStability

/-! What `ReadHandler` decides before it calls a message handler, which is a function of the
status and the buffer. The second check of the command never fails. -/

namespace Warhead
open Lib Hffix

namespace FixMessage
variable {mem : Bytes} {size : Nat} {cmd : Bytes}

theorem getCommand_ofMessageBuffer (b : MessageBuffer) (h : b.storage ≠ []) :
    getCommand (.ofMessageBuffer b) = commandOf b.storage b.storage.length := by
  unfold getCommand
  rw [ByteBuffer.contents_of_ne_nil (b := .ofMessageBuffer b) h]
  rfl

theorem commandOf_ok (h : commandOf mem size = .ok cmd) (hne : cmd ≠ []) :
    ∃ p digits checksum e,
      messageReader mem size = .ok (.complete size (p + digits.length + 4) checksum e) ∧
      Layout mem size p digits checksum e ∧
      (span mem (p + digits.length + 4 + 3 : Nat) e : Result Bytes) = .ok cmd := by
  obtain ⟨r, hr, h⟩ := bind_eq_ok.mp h
  rcases messageReader_ok hr with rfl | rfl | ⟨p, digits, checksum, e, rfl, hlayout⟩
  · exact absurd (Except.ok.inj h).symm hne
  · exact absurd (Except.ok.inj h).symm hne
  · refine ⟨p, digits, checksum, e, hr, hlayout, ?_⟩
    change asString mem ⟨(p + digits.length + 4 + 3 : Nat), e⟩ = .ok cmd at h
    unfold asString at h
    split_ifs at h
    exact h

theorem isValidCommand_of_getCommand {packet : ByteBuffer} (h : getCommand packet = .ok cmd)
    (hne : cmd ≠ []) : isValidCommand packet cmd = .ok true := by
  -- the second check asks the same reader the same question
  obtain ⟨message, hm, h⟩ := bind_eq_ok.mp h
  obtain ⟨p, digits, checksum, e, hr, -, -⟩ := commandOf_ok h hne
  obtain ⟨r, hr', h⟩ := bind_eq_ok.mp h
  obtain rfl := Except.ok.inj (hr'.symm.trans hr)
  unfold isValidCommand
  rw [hm]
  change (messageReader message packet.size >>= _) = _
  rw [hr]
  change (asString message _ >>= _) = _
  rw [show asString message _ = .ok cmd from h]
  exact congrArg Except.ok (eqString_self cmd)

theorem isReadLogonMessage_ofMessageBuffer (env : Env) {b : MessageBuffer} (h : b.storage ≠ []) :
    isReadLogonMessage env (.ofMessageBuffer b) =
      (logonReading env.shouldLog b.storage b.storage.length).map
        (answer (.ofMessageBuffer b) .isNotLogonType) := by
  unfold isReadLogonMessage
  rw [ByteBuffer.contents_of_ne_nil (b := .ofMessageBuffer b) h]
  rfl

theorem isReadNewOrderSingleMessage_ofMessageBuffer (env : Env) {b : MessageBuffer}
    (h : b.storage ≠ []) :
    isReadNewOrderSingleMessage env (.ofMessageBuffer b) =
      (newOrderSingleReading env.shouldLog b.storage b.storage.length).map
        (answer (.ofMessageBuffer b) .isNotNewOrderSingleType) := by
  unfold isReadNewOrderSingleMessage
  rw [ByteBuffer.contents_of_ne_nil (b := .ofMessageBuffer b) h]
  rfl

def readingFor (key : Bytes) (shouldLog : Bool) : Bytes → Nat → Result Reading :=
  if key = ascii "A" then logonReading shouldLog else newOrderSingleReading shouldLog

theorem readingOf_of_commandOf (fields : Bytes → MessageReader → Result Unit)
    (h : commandOf mem size = .ok cmd) (hne : cmd ≠ []) :
    ∃ r, messageReader mem size = .ok r ∧ readingOf cmd fields mem size =
      match fields mem r with
      | .error (.thrown what) => .ok (.failed what)
      | .error f => .error f
      | .ok () => .ok .read := by
  obtain ⟨p, digits, checksum, e, hr, -, -⟩ := commandOf_ok h hne
  refine ⟨_, hr, ?_⟩
  obtain ⟨r, hr', hcmd⟩ := bind_eq_ok.mp h
  obtain rfl := Except.ok.inj (hr'.symm.trans hr)
  change asString mem _ = .ok cmd at hcmd
  unfold readingOf
  rw [hr]
  dsimp only [Bind.bind, Except.bind, MessageReader.complete] at hcmd ⊢
  rw [if_pos rfl, hcmd]
  dsimp only
  rw [eqCString_self]
  dsimp only
  rw [if_pos rfl]
  rcases fields mem _ with ⟨e | _⟩ | ⟨⟩ <;> rfl

def reply (env : Env) (mem : Bytes) : Result MessageBuffer := do
  let text ← replyText env
  if 10000000 ≤ 4096 + text.length then .error .aborted
  else .ok ⟨4096 + text.length + 1, 0, resized mem 4096 ++ text ++ [0]⟩

theorem unthrown_reply (env : Env) (mem : Bytes) : Unthrown (reply env mem) := by
  refine (unthrown_replyText env).bind fun text _ => ?_
  split_ifs
  · exact fun _ => nofun
  · exact .ok _

end FixMessage

namespace AuthSession

/-- The exits of `ReadHandler` before a message handler is called, and the call. -/
inductive Decision where
  | unsupportProtocol (protocol : Bytes)
  | unknownCommand (cmd : Bytes)
  | wrongStatus
  | run (key : Bytes)
  deriving DecidableEq

def protocolOf (mem : Bytes) (rpos : Nat) : Result Bytes := do
  let data ← span mem (rpos + 2 : Nat) (rpos + 9 : Nat)
  let (text, _) ← (⟨0, 0, data⟩ : ByteBuffer).readCString
  pure text

def statusFor (key : Bytes) : Option AuthStatus := (handlers key).map AuthHandler.status

/-- The decision on a memory of which `size` bytes are taken for the message. -/
def decisionOf (status : AuthStatus) (rpos size : Nat) (mem : Bytes) : Result Decision := do
  let protocol ← protocolOf mem rpos
  if protocol ≠ FIX_PROTOCOL_SUPPORT then pure (.unsupportProtocol protocol)
  else do
    let cmd ← FixMessage.commandOf mem size
    match statusFor cmd with
    | none => pure (.unknownCommand cmd)
    | some required => pure (if status ≠ required then .wrongStatus else .run cmd)

def decision (s : AuthSession) : Result Decision :=
  decisionOf s.status s.readBuffer.rpos s.readBuffer.storage.length s.readBuffer.storage

theorem handlers_nil : handlers [] = none := rfl

theorem handlers_isSome {key : Bytes} {h : AuthHandler} (hh : handlers key = some h) :
    (key = ascii "A" ∧ h = ⟨.notAuthed, handleLogonMessage⟩) ∨
      (key = ascii "D" ∧ h = ⟨.authed, handleNewOrderSingleMessage⟩) := by
  unfold handlers at hh
  split_ifs at hh with ha hd
  · exact .inl ⟨ha, (Option.some.inj hh).symm⟩
  · exact .inr ⟨hd, (Option.some.inj hh).symm⟩

theorem fixProtocol_eq (b : MessageBuffer) : fixProtocol b = protocolOf b.storage b.rpos := by
  unfold fixProtocol protocolOf
  cases hspan : (span b.storage (b.rpos + 2 : Nat) (b.rpos + 9 : Nat) : Result Bytes) with
  | error f => rfl
  | ok data =>
    have hlen : data.length = 7 := by
      rw [length_of_span_eq_ok hspan]
      omega
    have hne : data ≠ [] := by
      rintro rfl
      exact absurd hlen (by decide)
    have hwrite : ((MessageBuffer.new.resize 7).write data : Result MessageBuffer) =
        .ok ⟨data.length, 0, data⟩ := by
      rw [MessageBuffer.new_resize, ← hlen]
      exact MessageBuffer.write_ofSize hne
    change ((MessageBuffer.new.resize 7).write data >>= _) = _
    rw [hwrite]
    rfl

def headerText (mem : Bytes) : Bytes := ((mem.drop 2).take 7).takeWhile (· != 0)

theorem protocolOf_zero {mem : Bytes} (h : 9 ≤ mem.length) :
    protocolOf mem 0 =
      if Utf8.isValid (headerText mem) = true then .ok (headerText mem)
      else .error (.thrown (.invalidValue "string" (headerText mem))) := by
  have hspan : (span mem (0 + 2 : Nat) (0 + 9 : Nat) : Result Bytes) =
      .ok ((mem.drop 2).take 7) := by
    rw [span, if_neg (by decide), if_neg (by omega)]
    rfl
  have htext : (ByteBuffer.takeCString ((mem.drop 2).take 7)).1 = headerText mem :=
    ByteBuffer.takeCString_fst _
  have hread := ByteBuffer.readCString_of_valid (b := ⟨0, 0, (mem.drop 2).take 7⟩)
  have hthrow := ByteBuffer.readCString_of_invalid (b := ⟨0, 0, (mem.drop 2).take 7⟩)
  simp only [List.drop_zero, htext] at hread hthrow
  unfold protocolOf
  rw [hspan]
  change ((⟨0, 0, (mem.drop 2).take 7⟩ : ByteBuffer).readCString >>= _) = _
  split_ifs with hv
  · rw [hread hv]
    rfl
  · rw [hthrow (by simpa using hv)]
    rfl

theorem decisionOf_of_commandOf {status : AuthStatus} {rpos size : Nat} {mem cmd : Bytes}
    (hp : protocolOf mem rpos = .ok FIX_PROTOCOL_SUPPORT)
    (hc : FixMessage.commandOf mem size = .ok cmd) :
    decisionOf status rpos size mem = .ok ((statusFor cmd).elim (.unknownCommand cmd) fun required =>
      if status ≠ required then .wrongStatus else .run cmd) := by
  unfold decisionOf
  rw [bind_of_ok hp, if_neg (not_not.mpr rfl), bind_of_ok hc]
  cases statusFor cmd with
  | none => rfl
  | some required => rfl

theorem decisionOf_ok {status : AuthStatus} {rpos size : Nat} {mem : Bytes} {d : Decision}
    (h : decisionOf status rpos size mem = .ok d) :
    (∃ protocol, d = .unsupportProtocol protocol) ∨
      protocolOf mem rpos = .ok FIX_PROTOCOL_SUPPORT ∧
        ∃ cmd, FixMessage.commandOf mem size = .ok cmd ∧
          d = (statusFor cmd).elim (.unknownCommand cmd) fun required =>
            if status ≠ required then .wrongStatus else .run cmd := by
  have hd := h
  unfold decisionOf at hd
  obtain ⟨protocol, hp, hd⟩ := bind_eq_ok.mp hd
  split_ifs at hd with hsupport
  · exact .inl ⟨protocol, (Except.ok.inj hd).symm⟩
  · rw [not_not.mp hsupport] at hp
    obtain ⟨cmd, hc, -⟩ := bind_eq_ok.mp hd
    exact .inr ⟨hp, cmd, hc, Except.ok.inj (h.symm.trans (decisionOf_of_commandOf hp hc))⟩

theorem decisionOf_run {status : AuthStatus} {rpos size : Nat} {mem key : Bytes} :
    decisionOf status rpos size mem = .ok (.run key) ↔
      protocolOf mem rpos = .ok FIX_PROTOCOL_SUPPORT ∧
      FixMessage.commandOf mem size = .ok key ∧ statusFor key = some status := by
  constructor
  · intro h
    rcases decisionOf_ok h with ⟨protocol, hd⟩ | ⟨hp, cmd, hc, hd⟩
    · cases hd
    · cases hr : statusFor cmd with
      | none =>
        rw [hr] at hd
        cases hd
      | some required =>
        rw [hr, Option.elim_some] at hd
        split_ifs at hd with hstatus
        obtain rfl := Decision.run.inj hd
        exact ⟨hp, hc, not_not.mp hstatus ▸ hr⟩
  · rintro ⟨hp, hc, hr⟩
    rw [decisionOf_of_commandOf hp hc, hr, Option.elim_some, if_neg (not_not.mpr rfl)]

theorem decisionOf_unknownCommand {status : AuthStatus} {rpos size : Nat} {mem cmd : Bytes} :
    decisionOf status rpos size mem = .ok (.unknownCommand cmd) ↔
      protocolOf mem rpos = .ok FIX_PROTOCOL_SUPPORT ∧
      FixMessage.commandOf mem size = .ok cmd ∧ statusFor cmd = none := by
  constructor
  · intro h
    rcases decisionOf_ok h with ⟨protocol, hd⟩ | ⟨hp, cmd', hc, hd⟩
    · cases hd
    · cases hr : statusFor cmd' with
      | some required =>
        rw [hr, Option.elim_some] at hd
        split_ifs at hd
      | none =>
        rw [hr] at hd
        obtain rfl := Decision.unknownCommand.inj hd
        exact ⟨hp, hc, hr⟩
  · rintro ⟨hp, hc, hr⟩
    rw [decisionOf_of_commandOf hp hc, hr]
    rfl

theorem statusFor_eq_some {key : Bytes} {status : AuthStatus} (h : statusFor key = some status) :
    (key = ascii "A" ∧ status = .notAuthed) ∨ (key = ascii "D" ∧ status = .authed) := by
  obtain ⟨handler, hh, rfl⟩ := Option.map_eq_some_iff.mp h
  rcases handlers_isSome hh with ⟨rfl, rfl⟩ | ⟨rfl, rfl⟩
  · exact .inl ⟨rfl, rfl⟩
  · exact .inr ⟨rfl, rfl⟩

def runKey (key : Bytes) (env : Env) (s : AuthSession) : AuthSession × Result Bool :=
  match handlers key with
  | none => (s, .ok false)
  | some h => s.runHandler key h env

theorem readHandler_eq (env : Env) (s : AuthSession) : s.readHandler env =
    match s.decision with
    | .error f => (s, .error f)
    | .ok (.unsupportProtocol protocol) =>
      ((s.logErrors [.unsupportProtocol protocol]).closeSocket, .ok ())
    | .ok (.unknownCommand cmd) => (s.logErrors [.unknownCommand cmd], .ok ())
    | .ok .wrongStatus => (s.closeSocket, .ok ())
    | .ok (.run key) =>
      match s.runKey key env with
      | (s, .error f) => (s, .error f)
      | (s, .ok false) => (s.closeSocket, .ok ())
      | (s, .ok true) => (s.resetReadBuffer.asyncRead, .ok ()) := by
  unfold readHandler decision decisionOf
  rw [fixProtocol_eq]
  cases hp : protocolOf s.readBuffer.storage s.readBuffer.rpos with
  | error f => rfl
  | ok protocol =>
    have hne : s.readBuffer.storage ≠ [] := by
      intro hnil
      obtain ⟨data, hspan, -⟩ := bind_eq_ok.mp hp
      rw [hnil, span, if_neg (by omega), if_pos (.inr (by simp; omega))] at hspan
      cases hspan
    dsimp only [Bind.bind, Except.bind]
    by_cases hsupport : protocol ≠ FIX_PROTOCOL_SUPPORT
    · rw [if_pos hsupport, if_pos hsupport]
      rfl
    rw [if_neg hsupport, if_neg hsupport, FixMessage.getCommand_ofMessageBuffer _ hne]
    cases hc : FixMessage.commandOf s.readBuffer.storage s.readBuffer.storage.length with
    | error f => rfl
    | ok cmd =>
      dsimp only
      cases hh : handlers cmd with
      | none => simp [statusFor, hh, pure, Except.pure]
      | some h =>
        have hcmd : cmd ≠ [] := by
          rintro rfl
          cases handlers_nil.symm.trans hh
        have hvalid := FixMessage.isValidCommand_of_getCommand
          ((FixMessage.getCommand_ofMessageBuffer s.readBuffer hne).trans hc) hcmd
        simp only [statusFor, hh, Option.map_some, hvalid, pure, Except.pure]
        by_cases hstatus : s.status ≠ h.status
        · rw [if_pos hstatus, if_pos hstatus]
        · rw [if_neg hstatus, if_neg hstatus]
          have hrun : s.runKey cmd env = s.runHandler cmd h env := by
            unfold runKey
            rw [hh]
          rewrite [← hrun]
          rfl

end AuthSession
end Warhead
