import WarheadFix.Server.Arrivals

/-! What a logon is answered with. The packet begins with the storage that held the request,
and the two messages stand behind it, read as a C string. -/

namespace Warhead.AuthSession
open Lib Hffix

section Packet
variable {env : Env} {s t : AuthSession} {mem logon newOrder : Bytes} {packet : MessageBuffer}

theorem active_of_reply (h : FixMessage.reply env mem = .ok packet) :
    ∃ text, FixMessage.replyText env = .ok text ∧
      packet.active = resized mem 4096 ++ text ++ [0] := by
  obtain ⟨text, htext, h⟩ := bind_eq_ok.mp h
  split_ifs at h
  obtain rfl := Except.ok.inj h
  refine ⟨text, htext, ?_⟩
  rw [MessageBuffer.active_of_rpos_zero rfl, List.take_of_length_le]
  rw [List.length_append, List.length_append, length_resized, List.length_singleton]

theorem sendPacket_of_not_open (b : ByteBuffer) (h : s.isOpen = false) :
    s.sendPacket b = (s.logErrors [.socketIsClose], .ok ()) :=
  if_pos (by rw [h]; rfl)

theorem queued_of_not_open (h : s.isOpen = false) :
    (s.handleLogonMessage env).1.queued = s.queued := by
  unfold handleLogonMessage
  dsimp only
  rcases FixMessage.isReadLogonMessage env _ with f | ⟨_ | _, lines⟩
  · rfl
  · rfl
  · dsimp only
    cases FixMessage.prepareTestMessage env (.ofMessageBuffer s.readBuffer) with
    | error f => rfl
    | ok b =>
      have hsend := sendPacket_of_not_open
        (s := { s.logErrors lines with status := .authed }) b h
      dsimp only
      rw [hsend]
      rfl

theorem storage_ne_nil_of_logon (h : (s.handleLogonMessage env).2 = .ok true) :
    s.readBuffer.storage ≠ [] := by
  intro hnil
  have hread : FixMessage.isReadLogonMessage env (.ofMessageBuffer s.readBuffer) =
      .error (.thrown .byteBuffer) := by
    unfold FixMessage.isReadLogonMessage ByteBuffer.contents
    rw [if_pos (show (ByteBuffer.ofMessageBuffer s.readBuffer).storage = [] from hnil)]
    rfl
  unfold handleLogonMessage at h
  dsimp only at h
  rw [hread] at h
  exact absurd h nofun

theorem reply_of_queued (h : s.handleLogonMessage env = (t, .ok true))
    (hq : t.queued = s.queued ++ [packet]) :
    FixMessage.reply env s.readBuffer.storage = .ok packet := by
  have hok : (s.handleLogonMessage env).2 = .ok true := by rw [h]
  have hne := storage_ne_nil_of_logon hok
  have ho : s.isOpen = true := by
    by_contra hclosed
    have hnone : (s.handleLogonMessage env).1.queued = s.queued :=
      queued_of_not_open (by simpa using hclosed)
    rw [h] at hnone
    exact absurd (hq.symm.trans hnone) (by simp)
  rw [handleLogonMessage_eq ho hne] at h
  cases hread : s.reading (ascii "A") env with
  | error f =>
    rw [hread] at h
    exact absurd (Prod.mk.inj h).2 nofun
  | ok r =>
    rw [hread] at h
    cases r with
    | read =>
      dsimp only at h
      cases hreply : FixMessage.reply env s.readBuffer.storage with
      | error f =>
        rw [hreply] at h
        exact absurd (Prod.mk.inj h).2 nofun
      | ok queued =>
        rw [hreply] at h
        rw [← (Prod.mk.inj h).1] at hq
        obtain rfl : queued = packet := List.singleton_inj.mp (List.append_cancel_left hq)
        rfl
    | _ => exact absurd (Prod.mk.inj h).2 (by simp)

theorem active_ne_messages (h : FixMessage.reply env mem = .ok packet)
    (hm : FixMessage.testMessages env.now = .ok (logon, newOrder)) :
    packet.active ≠ logon ++ newOrder ∧ packet.active ≠ logon ++ newOrder ++ [0] := by
  obtain ⟨text, -, hactive⟩ := active_of_reply h
  obtain ⟨l, n, hm', hl, hn⟩ := FixMessage.testMessages_ok env.now
  obtain ⟨rfl, rfl⟩ := Prod.mk.inj (Except.ok.inj (hm.symm.trans hm'))
  have hlong : packet.active.length = 4096 + text.length + 1 := by
    rw [hactive, List.length_append, List.length_append, length_resized, List.length_singleton]
  constructor
  · intro he
    rw [he, List.length_append] at hlong
    omega
  · intro he
    rw [he, List.length_append, List.length_append, List.length_singleton] at hlong
    omega

/-- No accepted logon is answered with the two messages: the packet is the storage of the
request, cut or filled up to 4096 bytes, the C string that begins with the messages, and a zero. -/
theorem reply_never_exact (h : s.handleLogonMessage env = (t, .ok true))
    (hq : t.queued = s.queued ++ [packet])
    (hm : FixMessage.testMessages env.now = .ok (logon, newOrder)) :
    packet.active ≠ logon ++ newOrder ∧ packet.active ≠ logon ++ newOrder ++ [0] ∧
      packet.active.take 4096 = resized s.readBuffer.storage 4096 := by
  have hreply := reply_of_queued h hq
  obtain ⟨hne, hne'⟩ := active_ne_messages hreply hm
  obtain ⟨text, -, hactive⟩ := active_of_reply hreply
  refine ⟨hne, hne', ?_⟩
  rw [hactive, List.append_assoc]
  exact List.take_left' (length_resized _ _)

def requested : AuthSession := new.start.delivered (fixText sampleLogon)

theorem handleLogonMessage_requested :
    ∃ packet, FixMessage.reply sampleEnv requested.readBuffer.storage = .ok packet ∧
      ∃ t, requested.handleLogonMessage sampleEnv = (t, .ok true) ∧
        t.queued = requested.queued ++ [packet] := by
  have hu : requested.Reading := armed_start.delivered (by decide)
  have hne : requested.readBuffer.storage ≠ [] := by
    rw [← List.length_pos_iff, hu.storage]
    decide
  have hread : requested.reading (ascii "A") sampleEnv = .ok .read := by decide +kernel
  have hok : (FixMessage.reply sampleEnv requested.readBuffer.storage).isOk = true := by
    decide +kernel
  cases hreply : FixMessage.reply sampleEnv requested.readBuffer.storage with
  | error f => rw [hreply] at hok; exact absurd hok nofun
  | ok packet =>
    refine ⟨packet, rfl, { requested with
      status := .authed, toSocket := requested.toSocket.queuePacket packet }, ?_, rfl⟩
    rw [handleLogonMessage_eq hu.isOpen hne, hread, hreply]

theorem reply_never_exact_requested :
    ∃ t packet logon newOrder,
      requested.handleLogonMessage sampleEnv = (t, .ok true) ∧
      t.queued = requested.queued ++ [packet] ∧
      FixMessage.testMessages sampleEnv.now = .ok (logon, newOrder) ∧
      packet.active ≠ logon ++ newOrder ∧ packet.active ≠ logon ++ newOrder ++ [0] ∧
      packet.active.take 4096 = resized requested.readBuffer.storage 4096 := by
  obtain ⟨packet, -, t, ht, hq⟩ := handleLogonMessage_requested
  obtain ⟨logon, newOrder, hm, -, -⟩ := FixMessage.testMessages_ok sampleEnv.now
  exact ⟨t, packet, logon, newOrder, ht, hq, hm, reply_never_exact ht hq hm⟩

theorem request_prefix_reply {data : Bytes} (h : FixMessage.reply env (s.overlay data) = .ok packet)
    (hlen : data.length ≤ 4096) : data <+: packet.active := by
  obtain ⟨text, -, hactive⟩ := active_of_reply h
  have htake : data <+: (s.overlay data).take 4096 :=
    List.prefix_take_iff.mpr ⟨List.prefix_append _ _, hlen⟩
  rw [hactive, resized, List.append_assoc, List.append_assoc]
  exact htake.trans (List.prefix_append _ _)

/-- The client's request comes back to it before anything that was meant for it. -/
theorem reply_echoes_request :
    ∃ t packet, requested.handleLogonMessage sampleEnv = (t, .ok true) ∧
      t.queued = requested.queued ++ [packet] ∧ fixText sampleLogon <+: packet.active ∧
      ∀ logon newOrder, FixMessage.testMessages sampleEnv.now = .ok (logon, newOrder) →
        packet.active ≠ logon ++ newOrder ∧ packet.active ≠ logon ++ newOrder ++ [0] := by
  obtain ⟨packet, hreply, t, ht, hq⟩ := handleLogonMessage_requested
  exact ⟨t, packet, ht, hq, request_prefix_reply (s := new.start) hreply (by decide),
    fun _ _ => active_ne_messages hreply⟩

end Packet
end Warhead.AuthSession
