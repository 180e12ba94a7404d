import WarheadFix.Server.Decision
import WarheadFix.Shared.SocketQueue

/-! `ReadHandler` by its exits. Each message handler is a function of its reading, and what
it does with it decides how the callback ends. -/

namespace Warhead.AuthSession
open Lib Hffix

section Handlers
variable {env : Env} {s : AuthSession} {key : Bytes}

def reading (key : Bytes) (env : Env) (s : AuthSession) : Result FixMessage.Reading :=
  FixMessage.readingFor key env.shouldLog s.readBuffer.storage s.readBuffer.storage.length

theorem handleNewOrderSingleMessage_eq (hne : s.readBuffer.storage ≠ []) :
    s.handleNewOrderSingleMessage env =
      match s.reading (ascii "D") env with
      | .error f => (s, .error f)
      | .ok .read => (s, .ok true)
      | .ok r => (s.logErrors (FixMessage.answer (.ofMessageBuffer s.readBuffer)
          .isNotNewOrderSingleType r).2, .ok false) := by
  unfold handleNewOrderSingleMessage
  dsimp only
  rw [FixMessage.isReadNewOrderSingleMessage_ofMessageBuffer env hne]
  change _ = match FixMessage.newOrderSingleReading env.shouldLog s.readBuffer.storage
    s.readBuffer.storage.length with | .error f => _ | .ok .read => _ | .ok r => _
  cases FixMessage.newOrderSingleReading env.shouldLog s.readBuffer.storage
    s.readBuffer.storage.length with
  | error f => rfl
  | ok r =>
    cases r with
    | read => simp [Except.map, FixMessage.answer, logErrors]
    | _ => rfl

theorem sendPacket_of_ne_nil (packet : ByteBuffer) (ho : s.isOpen = true)
    (hne : packet.storage ≠ []) :
    s.sendPacket packet = ({ s with
      toSocket := s.toSocket.queuePacket ⟨packet.storage.length, 0, packet.storage⟩ }, .ok ()) := by
  have hempty : packet.empty = false := by simpa [ByteBuffer.empty] using hne
  unfold sendPacket
  rw [ho, hempty, ByteBuffer.contents_of_ne_nil hne]
  simp only [Bool.not_true, Bool.false_eq_true, if_false, ByteBuffer.size,
    MessageBuffer.write_ofSize hne]

theorem handleLogonMessage_eq (ho : s.isOpen = true) (hne : s.readBuffer.storage ≠ []) :
    s.handleLogonMessage env =
      match s.reading (ascii "A") env with
      | .error f => (s, .error f)
      | .ok .read =>
        match FixMessage.reply env s.readBuffer.storage with
        | .error f => ({ s with status := .authed }, .error f)
        | .ok packet =>
          ({ s with status := .authed, toSocket := s.toSocket.queuePacket packet }, .ok true)
      | .ok r => (s.logErrors (FixMessage.answer (.ofMessageBuffer s.readBuffer)
          .isNotLogonType r).2, .ok false) := by
  unfold handleLogonMessage
  dsimp only
  rw [FixMessage.isReadLogonMessage_ofMessageBuffer env hne]
  change _ = match FixMessage.logonReading env.shouldLog s.readBuffer.storage
    s.readBuffer.storage.length with | .error f => _ | .ok .read => _ | .ok r => _
  cases FixMessage.logonReading env.shouldLog s.readBuffer.storage s.readBuffer.storage.length with
  | error f => rfl
  | ok r =>
    cases r with
    | read =>
      simp only [Except.map, FixMessage.answer, logErrors, List.append_nil,
        FixMessage.prepareTestMessage_eq, FixMessage.reply]
      cases FixMessage.replyText env with
      | error f => rfl
      | ok text =>
        dsimp only [Bind.bind, Except.bind]
        split_ifs
        · rfl
        · have hlen : (resized s.readBuffer.storage 4096 ++ text ++ [0]).length =
              4096 + text.length + 1 := by
            rw [List.length_append, List.length_append, length_resized, List.length_singleton]
          have hsend := sendPacket_of_ne_nil (s := { s with status := .authed })
            ⟨0, 4096 + text.length + 1, resized s.readBuffer.storage 4096 ++ text ++ [0]⟩ ho
            (by simp)
          dsimp only at hsend
          rw [hlen] at hsend
          simp only [ByteBuffer.ofMessageBuffer, hsend]
    | _ => rfl

inductive Ran (env : Env) (s : AuthSession) : Bytes → AuthSession × Result Bool → Prop where
  | fault {key : Bytes} {f : Fault Exn} (h : s.reading key env = .error f)
      (hf : ∀ e, f ≠ .thrown e) :
      Ran env s key (s.noteRun ⟨key, s.readBuffer, .error f⟩, .error f)
  | failed {key : Bytes} {what : Exn} (h : s.reading key env = .ok (.failed what)) :
      Ran env s key ((s.logErrors [.errorReadingFields what]).noteRun
        ⟨key, s.readBuffer, .ok false⟩, .ok false)
  | order (h : s.reading (ascii "D") env = .ok .read) :
      Ran env s (ascii "D") (s.noteRun ⟨ascii "D", s.readBuffer, .ok true⟩, .ok true)
  | replyFault {f : Fault Exn} (h : s.reading (ascii "A") env = .ok .read)
      (hr : FixMessage.reply env s.readBuffer.storage = .error f) :
      Ran env s (ascii "A") (noteRun { s with status := .authed }
        ⟨ascii "A", s.readBuffer, .error f⟩, .error f)
  | logon {packet : MessageBuffer} (h : s.reading (ascii "A") env = .ok .read)
      (hr : FixMessage.reply env s.readBuffer.storage = .ok packet) :
      Ran env s (ascii "A") (noteRun { s with
        status := .authed, toSocket := s.toSocket.queuePacket packet }
          ⟨ascii "A", s.readBuffer, .ok true⟩, .ok true)

theorem reading_of_decision (env : Env) (h : s.decision = .ok (.run key)) :
    (∃ f, s.reading key env = .error f ∧ ∀ e, f ≠ .thrown e) ∨
      (∃ what, s.reading key env = .ok (.failed what)) ∨ s.reading key env = .ok .read := by
  -- the message in the buffer is of that type, so no check of validity or type is met again
  obtain ⟨-, hc, hs⟩ := decisionOf_run.mp h
  have hshape : ∃ fields : Bytes → MessageReader → Result Unit, s.reading key env =
      FixMessage.readingOf key fields s.readBuffer.storage s.readBuffer.storage.length := by
    rcases statusFor_eq_some hs with ⟨rfl, -⟩ | ⟨rfl, -⟩
    · exact ⟨_, rfl⟩
    · exact ⟨_, rfl⟩
  have hne : key ≠ [] := by
    rintro rfl
    exact absurd hs nofun
  obtain ⟨fields, hfields⟩ := hshape
  obtain ⟨r, -, hread⟩ := FixMessage.readingOf_of_commandOf fields hc hne
  rw [hfields, hread]
  rcases fields s.readBuffer.storage r with f | u
  · cases f with
    | thrown what => exact .inr (.inl ⟨what, rfl⟩)
    | aborted => exact .inl ⟨_, rfl, nofun⟩
    | undefined => exact .inl ⟨_, rfl, nofun⟩
    | diverges => exact .inl ⟨_, rfl, nofun⟩
  · exact .inr (.inr rfl)

theorem storage_ne_nil_of_decision (h : s.decision = .ok (.run key)) :
    s.readBuffer.storage ≠ [] := by
  intro hnil
  obtain ⟨data, hspan, -⟩ := bind_eq_ok.mp (decisionOf_run.mp h).1
  rw [hnil, span, if_neg (by omega), if_pos (.inr (by simp; omega))] at hspan
  cases hspan

theorem runKey_ran (env : Env) (ho : s.isOpen = true) (h : s.decision = .ok (.run key)) :
    Ran env s key (s.runKey key env) := by
  have hne := storage_ne_nil_of_decision h
  have hread := reading_of_decision env h
  obtain ⟨-, -, hs⟩ := decisionOf_run.mp h
  rcases statusFor_eq_some hs with ⟨rfl, -⟩ | ⟨rfl, -⟩
  · change Ran env s (ascii "A") (runHandler (ascii "A") ⟨.notAuthed, handleLogonMessage⟩ env s)
    unfold runHandler
    dsimp only
    rw [handleLogonMessage_eq ho hne]
    rcases hread with ⟨f, hf, hthrown⟩ | ⟨what, hw⟩ | hok
    · rw [hf]
      exact .fault hf hthrown
    · rw [hw]
      exact .failed hw
    · rw [hok]
      dsimp only
      cases hreply : FixMessage.reply env s.readBuffer.storage with
      | error f => exact .replyFault hok hreply
      | ok packet => exact .logon hok hreply
  · change Ran env s (ascii "D")
      (runHandler (ascii "D") ⟨.authed, handleNewOrderSingleMessage⟩ env s)
    unfold runHandler
    dsimp only
    rw [handleNewOrderSingleMessage_eq hne]
    rcases hread with ⟨f, hf, hthrown⟩ | ⟨what, hw⟩ | hok
    · rw [hf]
      exact .fault hf hthrown
    · rw [hw]
      exact .failed hw
    · rw [hok]
      exact .order hok

inductive Exits (env : Env) (s : AuthSession) : AuthSession × Result Unit → Prop where
  | fault {f : Fault Exn} (h : s.decision = .error f) : Exits env s (s, .error f)
  | unsupportProtocol {protocol : Bytes} (h : s.decision = .ok (.unsupportProtocol protocol)) :
      Exits env s ((s.logErrors [.unsupportProtocol protocol]).closeSocket, .ok ())
  | unknownCommand {cmd : Bytes} (h : s.decision = .ok (.unknownCommand cmd)) :
      Exits env s (s.logErrors [.unknownCommand cmd], .ok ())
  | wrongStatus (h : s.decision = .ok .wrongStatus) : Exits env s (s.closeSocket, .ok ())
  | handlerFault {key : Bytes} {t : AuthSession} {f : Fault Exn}
      (h : s.decision = .ok (.run key)) (hr : Ran env s key (t, .error f)) :
      Exits env s (t, .error f)
  | rejected {key : Bytes} {t : AuthSession} (h : s.decision = .ok (.run key))
      (hr : Ran env s key (t, .ok false)) : Exits env s (t.closeSocket, .ok ())
  | accepted {key : Bytes} {t : AuthSession} (h : s.decision = .ok (.run key))
      (hr : Ran env s key (t, .ok true)) : Exits env s (t.resetReadBuffer.asyncRead, .ok ())

theorem readHandler_exits (env : Env) (ho : s.isOpen = true) : Exits env s (s.readHandler env) := by
  rw [readHandler_eq]
  rcases hd : s.decision with f | d
  · exact .fault hd
  cases d with
  | unsupportProtocol protocol => exact .unsupportProtocol hd
  | unknownCommand cmd => exact .unknownCommand hd
  | wrongStatus => exact .wrongStatus hd
  | run key =>
    have hran := runKey_ran env ho hd
    dsimp only
    rcases hk : s.runKey key env with ⟨t, f | accepted⟩
    · exact .handlerFault hd (hk ▸ hran)
    · cases accepted with
      | false => exact .rejected hd (hk ▸ hran)
      | true => exact .accepted hd (hk ▸ hran)

end Handlers
end Warhead.AuthSession
