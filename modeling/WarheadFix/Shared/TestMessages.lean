import WarheadFix.Shared.FixMessage

/-! The reply to a logon. The two messages always fit into their array, whatever the clock
says, and the packet is the old storage of the request, resized, with a C string after it. -/

namespace Warhead
open Lib Hffix

namespace Hffix.MessageWriter

theorem adds_timestamp (tag : Int) (t : Timestamp) :
    Adds (·.pushBackTimestamp tag t) ((itoa tag).length + 23) := by
  have h := adds_pushField tag (timestampText t)
  simp only [fieldBytes, List.length_append, length_timestampText, List.length_singleton] at h
  exact h

theorem pushBackTrailer_ok {w : MessageWriter} {start : Nat} (h : w.bodyLength = some start)
    (hstart : start + 6 ≤ w.written.length) (hroom : w.written.length + 7 ≤ w.room) :
    ∃ w', w.pushBackTrailer = .ok w' ∧ w'.written.length = w.written.length + 7 := by
  have hlen : (overwrite w.written start
      (itoaPadded 6 (w.written.length - (start + 7) : Nat))).length = w.written.length :=
    length_overwrite (by rw [length_itoaPadded]; exact hstart)
  unfold pushBackTrailer
  rw [h]
  dsimp only
  rw [if_neg (by rw [hlen]; omega)]
  refine ⟨_, rfl, ?_⟩
  simp only [List.length_append, hlen, length_itoaPadded, List.length_singleton]
  rfl

theorem writeMessage_ok (room : Nat) {calls : List (MessageWriter → Result MessageWriter)}
    {ns : List Nat} (h : List.Forall₂ Adds calls ns) (hroom : ns.sum + 26 ≤ room) :
    ∃ m, FixMessage.writeMessage room calls = .ok m ∧ m.length = ns.sum + 26 := by
  have hheader : (ascii "FIX.5.0").length + 12 ≤ room := by
    change 19 ≤ room
    omega
  obtain ⟨w₁, h₁, hr₁, hb₁, hl₁⟩ := pushBackHeader_new hheader
  change w₁.written.length = 19 at hl₁
  change w₁.bodyLength = some 12 at hb₁
  obtain ⟨w₂, h₂, hr₂, hb₂, hl₂⟩ := adds_pushAll h w₁ (by omega)
  obtain ⟨w₃, h₃, hl₃⟩ := pushBackTrailer_ok (hb₂.trans hb₁) (by omega) (by omega)
  refine ⟨w₃.written, ?_, by omega⟩
  simp only [FixMessage.writeMessage, h₁, h₂, h₃, Bind.bind, Except.bind]
  rfl

end Hffix.MessageWriter

namespace FixMessage
open MessageWriter

theorem logonCalls_add (now : Timestamp) :
    List.Forall₂ Adds (logonCalls now) [5, 8, 8, 5, 25, 5, 7] :=
  .cons (adds_pushField 35 (ascii "A")) <| .cons (adds_pushField 49 (ascii "AAAA")) <|
  .cons (adds_pushField 56 (ascii "BBBB")) <| .cons (adds_pushField 34 (itoa 1)) <|
  .cons (adds_timestamp 52 now) <| .cons (adds_pushField 98 (itoa 0)) <|
  .cons (adds_pushField 108 (itoa 10)) .nil

theorem newOrderCalls_add (now : Timestamp) :
    List.Forall₂ Adds (newOrderCalls now) [5, 8, 8, 5, 25, 6, 5, 7, 5, 25, 7, 5, 10, 5] :=
  .cons (adds_pushField 35 (ascii "D")) <| .cons (adds_pushField 49 (ascii "AAAA")) <|
  .cons (adds_pushField 56 (ascii "BBBB")) <| .cons (adds_pushField 34 (itoa 2)) <|
  .cons (adds_timestamp 52 now) <| .cons (adds_pushField 11 (ascii "A1")) <|
  .cons (adds_pushField 21 [49]) <| .cons (adds_pushField 55 (ascii "OIH")) <|
  .cons (adds_pushField 54 [49]) <| .cons (adds_timestamp 60 now) <|
  .cons (adds_pushField 38 (itoa 100)) <| .cons (adds_pushField 40 [50]) <|
  .cons (adds_pushField 44 (dtoa 50001 (-2))) <| .cons (adds_pushField 59 [49]) .nil

theorem testMessages_ok (now : Timestamp) : ∃ logon newOrder,
    testMessages now = .ok (logon, newOrder) ∧ logon.length = 89 ∧ newOrder.length = 152 := by
  obtain ⟨logon, h, hlen⟩ := writeMessage_ok 4096 (logonCalls_add now) (by decide)
  change logon.length = 89 at hlen
  obtain ⟨newOrder, h', hlen'⟩ := writeMessage_ok (4096 - logon.length)
    (newOrderCalls_add now) (by rw [hlen]; decide)
  refine ⟨logon, newOrder, ?_, hlen, hlen'⟩
  unfold testMessages
  rw [h]
  dsimp only [Bind.bind, Except.bind]
  rw [h']
  rfl

/-- The C string in the array, the two messages and what follows them up to a zero. -/
def replyText (env : Env) : Result Bytes := do
  let (logon, newOrder) ← testMessages env.now
  cString (overwrite env.stack 0 (logon ++ newOrder))

theorem appendString_eq {b : ByteBuffer} (value : Bytes) (hw : b.wpos = b.size)
    (hsize : b.size < 10000000) :
    b.appendString value =
      if 10000000 ≤ b.size + value.length then .error .aborted
      else .ok ⟨b.rpos, b.wpos + value.length + 1, b.storage ++ value ++ [0]⟩ := by
  split_ifs with hbig
  · have hne : value ≠ [] := by
      rintro rfl
      simp only [List.length_nil] at hbig
      omega
    have hfirst := ByteBuffer.append_at_end hw hne hsize
    unfold ByteBuffer.appendString
    rw [if_neg hne, hfirst]
    refine if_pos (.inr ?_)
    simpa [ByteBuffer.size] using hbig
  · exact ByteBuffer.appendString_at_end hw (by omega)

theorem prepareTestMessage_eq (env : Env) (packet : ByteBuffer) :
    prepareTestMessage env packet =
      (do
        let text ← replyText env
        if 10000000 ≤ 4096 + text.length then .error .aborted
        else .ok ⟨0, 4096 + text.length + 1, resized packet.storage 4096 ++ text ++ [0]⟩) := by
  obtain ⟨logon, newOrder, h, -, -⟩ := testMessages_ok env.now
  have hsize : (packet.resize 4096).size = 4096 := length_resized _ _
  have happend := fun text => appendString_eq (b := packet.resize 4096) text hsize.symm
    (by rw [hsize]; decide)
  simp only [hsize] at happend
  unfold prepareTestMessage replyText
  rw [h]
  dsimp only [Bind.bind, Except.bind]
  cases cString (overwrite env.stack 0 (logon ++ newOrder)) with
  | error f => rfl
  | ok text => exact happend text

theorem unthrown_replyText (env : Env) : Unthrown (replyText env) := by
  -- the messages always fit, and a missing terminator is no exception
  obtain ⟨logon, newOrder, h, -, -⟩ := testMessages_ok env.now
  unfold replyText
  rw [h]
  change Unthrown (cString _)
  unfold cString
  split_ifs
  · exact .ok _
  · exact fun _ => nofun

end FixMessage
end Warhead
