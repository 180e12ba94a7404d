import WarheadFix.Shared.ReaderShape
import WarheadFix.Shared.FixMessage

/-! The message reader on a frame: a whole frame at the beginning of the buffer is read as
what it is, whatever follows it. -/

namespace Warhead.Hffix
open Lib

def fixText (f : Frame) : Bytes := f.bytes (ascii "FIX.5.0")

section Scans
variable {size : Nat} {rest : Bytes} {b : Nat}

theorem skipPrefix_soh (hb : b < size) :
    skipPrefix size (SOH :: rest) b = .ok (.found b) := by
  rw [skipPrefix, if_neg (by omega), if_pos rfl]

theorem skipPrefix_append {ts : Bytes} (hts : SOH ∉ ts) (hlast : b + ts.length ≤ 12)
    (hsize : b + ts.length < size) :
    skipPrefix size (ts ++ SOH :: rest) b = .ok (.found (b + ts.length)) := by
  induction ts generalizing b with
  | nil => exact skipPrefix_soh hsize
  | cons c ts ih =>
    have hc : c ≠ SOH := fun he => hts (he ▸ List.mem_cons_self ..)
    rw [List.length_cons] at hlast hsize ⊢
    rw [List.cons_append, skipPrefix, if_neg (by omega), if_neg hc, if_neg (by omega),
      ih (fun hmem => hts (List.mem_cons_of_mem _ hmem)) (by omega) (by omega), Nat.add_right_comm,
      Nat.add_assoc]

theorem readBodyLength_digits {digits : Bytes} {n : Nat} (hd : IsDigits digits)
    (hsize : b + digits.length < size) :
    readBodyLength size (digits ++ SOH :: rest) b n = .ok (.found (b + digits.length,
      digits.foldl (fun n c => (n * 10 + (c.toNat - 48)) % 2 ^ 64) n)) := by
  induction digits generalizing b n with
  | nil => rw [List.nil_append, readBodyLength, if_neg (by simp at hsize; omega), if_pos rfl]; rfl
  | cons c digits ih =>
    have hc : 48 ≤ c ∧ c ≤ 57 := hd c (List.mem_cons_self ..)
    have hsoh : c ≠ SOH := by
      rintro rfl
      exact absurd hc.1 (by decide)
    rw [List.length_cons] at hsize
    rw [List.cons_append, readBodyLength, if_neg (by omega), if_neg hsoh,
      if_neg (by simpa only [not_or, UInt8.not_lt] using hc),
      ih (fun d hd' => hd d (List.mem_cons_of_mem _ hd')) (by omega), List.length_cons]
    simp only [List.foldl_cons, Nat.add_assoc, Nat.add_comm 1]

theorem readMsgType_soh {ts : Bytes} {checksum q : Int} (hts : SOH ∉ ts)
    (hq : q + ts.length ≤ checksum) :
    readMsgType checksum (ts ++ SOH :: rest) q = .ok (some (q + ts.length)) := by
  induction ts generalizing q with
  | nil => simp [readMsgType]
  | cons c ts ih =>
    have hc : c ≠ SOH := fun he => hts (he ▸ List.mem_cons_self ..)
    rw [List.length_cons] at hq ⊢
    rw [List.cons_append, readMsgType, if_neg hc, if_neg (by push_cast at hq; omega),
      ih (fun hmem => hts (List.mem_cons_of_mem _ hmem)) (by push_cast at hq; omega)]
    push_cast
    rw [Int.add_assoc, Int.add_comm 1]

end Scans

section Places
variable {mem : Bytes} {n : Nat}

theorem drop_of_append (before after : Bytes) (h : mem = before ++ after)
    (hn : before.length = n) : mem.drop n = after := by
  rw [h, ← hn, List.drop_left]

theorem getElem?_of_append {c : UInt8} (before after : Bytes) (h : mem = before ++ c :: after)
    (hn : before.length = n) : mem[n]? = some c := by
  rw [h, ← hn, List.getElem?_append_right le_rfl, Nat.sub_self, List.getElem?_cons_zero]

end Places

theorem displacement_of_lt {n : Nat} (h : n < 2 ^ 63) : displacement n = n :=
  Int.bmod_eq_of_le (by omega) (by omega)

variable {f : Frame} {mem tail : Bytes} {size : Nat}

section Text

def headOf (f : Frame) : Bytes := Frame.head (ascii "FIX.5.0") f.digits

theorem headOf_eq (f : Frame) :
    headOf f = ascii "8=FIX.5.0" ++ SOH :: (ascii "9=" ++ (f.digits ++ [SOH])) := by
  simp [headOf, Frame.head, ascii]

theorem length_headOf (f : Frame) : (headOf f).length = f.digits.length + 13 := by
  rw [headOf, Frame.length_head]
  change 7 + _ + 6 = _
  omega

theorem fixText_append (f : Frame) (tail : Bytes) : fixText f ++ tail =
    headOf f ++ (f.body ++ (Frame.trailer (headOf f ++ f.body) ++ tail)) := by
  simp only [fixText, Frame.bytes, headOf, List.append_assoc]

theorem length_fixText (f : Frame) : (fixText f).length =
    f.digits.length + f.msgType.length + f.rest.length + 24 := by
  rw [fixText, Frame.length_bytes]
  change 7 + _ + _ + _ + 17 = _
  omega

theorem fixText_ne_nil (f : Frame) : fixText f ≠ [] := by
  intro hnil
  have hlen := length_fixText f
  rw [hnil, List.length_nil] at hlen
  omega

theorem drop_version (f : Frame) (tail : Bytes) : (fixText f ++ tail).drop 9 =
    SOH :: 57 :: 61 :: (f.digits ++
      SOH :: (f.body ++ (Frame.trailer (headOf f ++ f.body) ++ tail))) := by
  refine drop_of_append (ascii "8=FIX.5.0") _ ?_ rfl
  rw [fixText_append, headOf_eq]
  have hnine : ascii "9=" = [57, 61] := rfl
  simp only [hnine, List.append_assoc, List.cons_append, List.nil_append]

theorem drop_digits (f : Frame) (tail : Bytes) : (fixText f ++ tail).drop 12 =
    f.digits ++ SOH :: (f.body ++ (Frame.trailer (headOf f ++ f.body) ++ tail)) := by
  have hdrop := congrArg (List.drop 3) (drop_version f tail)
  rwa [List.drop_drop] at hdrop

theorem drop_msgType (f : Frame) (tail : Bytes) :
    (fixText f ++ tail).drop (f.digits.length + 16) =
      f.msgType ++ SOH :: (f.rest ++ (Frame.trailer (headOf f ++ f.body) ++ tail)) := by
  refine drop_of_append (headOf f ++ ascii "35=") _ ?_ ?_
  · rw [fixText_append]
    simp only [Frame.body, List.append_assoc, List.cons_append]
  · rw [List.length_append, length_headOf]
    rfl

theorem getElem?_fixText {c : UInt8} {n k : Nat} (before after : Bytes)
    (h : f.body ++ (Frame.trailer (headOf f ++ f.body) ++ tail) = before ++ c :: after)
    (hk : before.length = k) (hn : n = f.digits.length + 13 + k) :
    (fixText f ++ tail)[n]? = some c := by
  refine getElem?_of_append (headOf f ++ before) after ?_ ?_
  · rw [fixText_append, h, List.append_assoc]
  · rw [List.length_append, length_headOf, hk, hn]

end Text

def checksumOf (f : Frame) : Nat := f.digits.length + f.msgType.length + f.rest.length + 17

theorem messageReader_of_layout {p : Nat} {digits : Bytes} {checksum e : Int}
    (h : Layout mem size p digits checksum e) (hp : p ≤ 12) (hsize : p + digits.length + 7 < size)
    (he : e ≤ checksum) :
    messageReader mem size = .ok (.complete size (p + digits.length + 4) checksum e) := by
  obtain ⟨vs, vrest, hv, hvs, hpv⟩ := h.version
  obtain ⟨lrest, hl⟩ := h.length
  obtain ⟨ts, trest, ht, hts, rfl⟩ := h.typeEnd
  have hstart : p + digits.length + 4 = p + 3 + digits.length + 1 := by omega
  have hskip : skipPrefix size (mem.drop 9) 9 = .ok (.found p) := by
    rw [hv, hpv]
    exact skipPrefix_append hvs (by omega) (by omega)
  have hlen : readBodyLength size (mem.drop (p + 3)) (p + 3) 0 =
      .ok (.found (p + 3 + digits.length, bodyLengthOf digits)) := by
    rw [hl]
    exact readBodyLength_digits h.isDigits (by omega)
  have htype : readMsgType checksum (mem.drop (p + digits.length + 4 + 4))
      (p + digits.length + 4 + 4 : Nat) =
        .ok (some (p + digits.length + 8 + ts.length : Nat)) := by
    rw [ht, readMsgType_soh hts (by push_cast at he ⊢; omega)]
    push_cast
    rfl
  have hc := h.checksum_le
  have hb : initBody mem size (p + digits.length + 4) (bodyLengthOf digits) =
      .ok (.complete size (p + digits.length + 4) checksum
        (p + digits.length + 8 + ts.length : Nat)) := by
    simp only [initBody, ← h.checksum_eq]
    rw [if_neg (by omega), expect_of_byteAt (byteAt_of_getElem? h.typeTag.1),
      expect_of_byteAt (byteAt_of_getElem? h.typeTag.2), if_neg (by omega),
      expect_of_byteAt h.bodyEnd, expect_of_byteAt h.messageEnd, htype]
    rfl
  rw [messageReader, hskip]
  change initLength mem size p = _
  rw [initLength, if_neg (by omega), expect_of_byteAt (byteAt_of_getElem? h.lengthTag), hlen]
  change initBody mem size (p + 3 + digits.length + 1) (bodyLengthOf digits) = _
  rw [← hstart, hb]

theorem bodyLengthOf_of_lt {digits : Bytes} (h : decimal digits < 2 ^ 64) :
    bodyLengthOf digits = decimal digits := by
  have hmod := foldl_decimal_mod (2 ^ 64) digits 0
  rw [Nat.zero_mod] at hmod
  rw [bodyLengthOf, hmod, ← decimal, Nat.mod_eq_of_lt h]

theorem bodyLengthOf_eq (f : Frame) (h : f.body.length < 2 ^ 64) :
    bodyLengthOf f.digits = f.body.length := by
  have hlen : decimal f.digits = f.body.length := by rw [f.length_eq, Frame.length_body]
  rw [bodyLengthOf_of_lt (hlen ▸ h), hlen]

theorem body_eq (f : Frame) : ∃ t ts, f.msgType = t :: ts ∧
    f.body = 51 :: 53 :: 61 :: t :: (ts ++ SOH :: f.rest) := by
  obtain ⟨t, ts, htype⟩ := List.exists_cons_of_ne_nil f.type_ne
  refine ⟨t, ts, htype, ?_⟩
  rw [Frame.body, htype]
  rfl

structure IsVersion (version : Bytes) : Prop where
  length : 7 ≤ version.length ∧ version.length ≤ 10
  soh : SOH ∉ version.drop 7

section Version
variable {version : Bytes}

theorem bytes_append (version : Bytes) (f : Frame) (tail : Bytes) : f.bytes version ++ tail =
    Frame.head version f.digits ++
      (f.body ++ (Frame.trailer (Frame.head version f.digits ++ f.body) ++ tail)) := by
  simp only [Frame.bytes, List.append_assoc]

theorem head_eq (version digits : Bytes) :
    Frame.head version digits = ascii "8=" ++ (version ++ SOH :: 57 :: 61 :: (digits ++ [SOH])) := by
  have hnine : ascii "9=" = [57, 61] := rfl
  simp only [Frame.head, hnine, List.append_assoc, List.cons_append, List.nil_append]

theorem getElem?_bytes {c : UInt8} {n : Nat} (before after : Bytes)
    (h : f.body ++ (Frame.trailer (Frame.head version f.digits ++ f.body) ++ tail) =
      before ++ c :: after) (hn : n = (Frame.head version f.digits).length + before.length) :
    (f.bytes version ++ tail)[n]? = some c := by
  refine getElem?_of_append (Frame.head version f.digits ++ before) after ?_ ?_
  · rw [bytes_append, h, List.append_assoc]
  · rw [List.length_append, hn]

theorem bytes_layout (tail : Bytes) (hv : IsVersion version) (hle : (f.bytes version).length ≤ size)
    (hsize : size < 2 ^ 63) :
    Layout (f.bytes version ++ tail) size (version.length + 2) f.digits
      ((Frame.head version f.digits).length + f.body.length : Nat)
      ((Frame.head version f.digits).length + 3 + f.msgType.length : Nat) := by
  have hlen := Frame.length_bytes version f
  have hhead := Frame.length_head version f.digits
  have hlength : bodyLengthOf f.digits = f.body.length :=
    bodyLengthOf_eq f (by rw [Frame.length_body]; omega)
  obtain ⟨t, ts, htype, hbody⟩ := body_eq f
  obtain ⟨fields, hends⟩ := f.body_ends
  have hfields : fields.length + 1 = f.body.length := by
    rw [hends, List.length_append, List.length_singleton]
  have hbodylen := Frame.length_body f
  obtain ⟨hseven, hten⟩ := hv.length
  let sum := threeDigits (byteSum (Frame.head version f.digits ++ f.body))
  have hafter : Frame.trailer (Frame.head version f.digits ++ f.body) ++ tail =
      ascii "10=" ++ sum ++ SOH :: tail := by
    simp [Frame.trailer, sum]
  have htext : f.bytes version ++ tail = ascii "8=" ++ (version ++ SOH :: 57 :: 61 :: (f.digits ++
      SOH :: (f.body ++ (Frame.trailer (Frame.head version f.digits ++ f.body) ++ tail)))) := by
    rw [bytes_append, head_eq]
    simp only [List.append_assoc, List.cons_append, List.nil_append]
  have hdrop : (f.bytes version ++ tail).drop (version.length + 2) =
      SOH :: 57 :: 61 :: (f.digits ++
        SOH :: (f.body ++ (Frame.trailer (Frame.head version f.digits ++ f.body) ++ tail))) := by
    refine drop_of_append (ascii "8=" ++ version) _ (by rw [htext, List.append_assoc]) ?_
    rw [List.length_append]
    exact Nat.add_comm 2 _
  constructor
  · have htwo : (f.bytes version ++ tail).drop 2 = version ++ SOH :: 57 :: 61 :: (f.digits ++
        SOH :: (f.body ++ (Frame.trailer (Frame.head version f.digits ++ f.body) ++ tail))) :=
      drop_of_append (ascii "8=") _ htext rfl
    refine ⟨version.drop 7, 57 :: 61 :: (f.digits ++ SOH :: (f.body ++
      (Frame.trailer (Frame.head version f.digits ++ f.body) ++ tail))), ?_, hv.soh, ?_⟩
    · rw [← List.drop_append_of_le_length hseven, ← htwo, List.drop_drop]
    · rw [List.length_drop]
      omega
  · rw [← List.getElem?_drop, hdrop]
    rfl
  · have hrest := congrArg (List.drop 3) hdrop
    rw [List.drop_drop] at hrest
    exact ⟨_, hrest⟩
  · exact f.isDigits
  · refine ⟨getElem?_bytes [] _ (by rw [hbody]; rfl) ?_, ?_⟩
    · rw [hhead, List.length_nil]
      omega
    · refine getElem?_bytes [51] _ (by rw [hbody]; rfl) ?_
      rw [hhead, List.length_singleton]
      omega
  · rw [hlength, displacement_of_lt (by omega)]
    push_cast
    omega
  · push_cast
    omega
  · -- the SOH before the trailer is the one that ends the body
    have hplace : (((Frame.head version f.digits).length + f.body.length : Nat) : Int) - 1 =
        ((Frame.head version f.digits).length + fields.length : Nat) := by
      omega
    rw [hplace]
    refine byteAt_of_getElem? (getElem?_bytes fields
      (Frame.trailer (Frame.head version f.digits ++ f.body) ++ tail) ?_ rfl)
    conv_lhs => rw [hends, List.append_assoc]
    rw [hends]
    rfl
  · have hplace : (((Frame.head version f.digits).length + f.body.length : Nat) : Int) + 6 =
        ((Frame.head version f.digits).length + (f.body ++ (ascii "10=" ++ sum)).length : Nat) := by
      rw [List.length_append]
      change _ = ((_ + (_ + (3 + 3)) : Nat) : Int)
      omega
    rw [hplace]
    refine byteAt_of_getElem? (getElem?_bytes (f.body ++ (ascii "10=" ++ sum)) tail ?_ rfl)
    rw [hafter]
    simp only [List.append_assoc]
  · have hvalue : (f.bytes version ++ tail).drop ((Frame.head version f.digits).length + 4) =
        ts ++ SOH :: (f.rest ++ (Frame.trailer (Frame.head version f.digits ++ f.body) ++ tail)) := by
      rw [bytes_append, ← List.drop_drop, List.drop_left, hbody]
      simp only [List.cons_append, List.drop_succ_cons, List.drop_zero, List.append_assoc]
    rw [show (Frame.head version f.digits).length + 4 = version.length + 2 + f.digits.length + 8 by
      omega] at hvalue
    refine ⟨ts, _, hvalue, fun hin => f.type_soh (htype ▸ List.mem_cons_of_mem _ hin), ?_⟩
    rw [htype, List.length_cons]
    push_cast
    omega

theorem messageReader_bytes (tail : Bytes) (hv : IsVersion version) (hle : (f.bytes version).length ≤ size)
    (hsize : size < 2 ^ 63) :
    messageReader (f.bytes version ++ tail) size =
      .ok (.complete size (Frame.head version f.digits).length
        ((Frame.head version f.digits).length + f.body.length : Nat)
        ((Frame.head version f.digits).length + 3 + f.msgType.length : Nat)) := by
  have hlen := Frame.length_bytes version f
  have hhead := Frame.length_head version f.digits
  have hbodylen := Frame.length_body f
  obtain ⟨-, hten⟩ := hv.length
  have hstart : version.length + 2 + f.digits.length + 4 =
      (Frame.head version f.digits).length := by omega
  have hread := messageReader_of_layout (bytes_layout tail hv hle hsize) (by omega)
    (by omega) (by push_cast; omega)
  rwa [hstart] at hread

end Version

theorem isVersion_fix50 : IsVersion (ascii "FIX.5.0") where
  length := by decide
  soh := by decide

theorem messageReader_fixText (hle : (fixText f).length ≤ size) (hsize : size < 2 ^ 63) :
    messageReader (fixText f ++ tail) size =
      .ok (.complete size (9 + f.digits.length + 4) (checksumOf f)
        (f.digits.length + 16 + f.msgType.length : Nat)) := by
  have hread := messageReader_bytes tail isVersion_fix50 hle hsize
  have hstart : (Frame.head (ascii "FIX.5.0") f.digits).length = 9 + f.digits.length + 4 := by
    rw [Frame.length_head]
    change 7 + _ + 6 = _
    omega
  have hchecksum : 9 + f.digits.length + 4 + f.body.length = checksumOf f := by
    rw [Frame.length_body, checksumOf]
    omega
  rw [hstart, hchecksum] at hread
  rw [show f.digits.length + 16 + f.msgType.length =
    9 + f.digits.length + 4 + 3 + f.msgType.length by omega]
  exact hread

theorem commandOf_fixText (hle : (fixText f).length ≤ size) (hsize : size < 2 ^ 63) :
    FixMessage.commandOf (fixText f ++ tail) size = .ok f.msgType := by
  have hspan := span_of_drop (ε := Exn) _ (drop_msgType f tail) rfl
  unfold FixMessage.commandOf
  rw [messageReader_fixText hle hsize]
  change asString (fixText f ++ tail) ⟨(9 + f.digits.length + 4 + 3 : Nat),
    (f.digits.length + 16 + f.msgType.length : Nat)⟩ = _
  rw [asString, if_neg (by dsimp only; omega),
    show 9 + f.digits.length + 4 + 3 = f.digits.length + 16 by omega]
  exact hspan

end Warhead.Hffix
