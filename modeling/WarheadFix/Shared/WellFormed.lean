import WarheadFix.Shared.ReaderFraming

/-! Which messages that the reader accepts are well formed. The reader looks at a part of the
places of a message; here are the others, and together they make a frame. -/

namespace Warhead.Hffix
open Lib

/-- What neither the reader nor the check of the protocol looks at: the first two bytes, that
the version ends where it should, two equals signs, that there are digits, and the trailer. -/
def PlacesRight (data : Bytes) : Prop :=
  let digits := (data.drop 12).takeWhile (· != SOH)
  let checksum := 13 + digits.length + decimal digits
  data.take 2 = ascii "8=" ∧ data[9]? = some SOH ∧ data[11]? = some 61 ∧ digits ≠ [] ∧
    data[13 + digits.length + 2]? = some 61 ∧
    (data.drop checksum).take 7 = Frame.trailer (data.take checksum)

instance (data : Bytes) : Decidable (PlacesRight data) := by
  unfold PlacesRight
  infer_instance

section Pieces
variable {bs k : Bytes} {n : Nat} {c : UInt8}

theorem drop_of_take (h : (bs.drop n).take k.length = k) :
    bs.drop n = k ++ bs.drop (n + k.length) := by
  have hsplit := List.take_append_drop k.length (bs.drop n)
  rwa [h, List.drop_drop, eq_comm] at hsplit

theorem drop_of_getElem? (h : bs[n]? = some c) : bs.drop n = c :: bs.drop (n + 1) := by
  obtain ⟨hn, rfl⟩ := List.getElem?_eq_some_iff.mp h
  exact List.drop_eq_getElem_cons hn

theorem takeWhile_soh {ts rest : Bytes} (h : SOH ∉ ts) :
    (ts ++ SOH :: rest).takeWhile (· != SOH) = ts := by
  induction ts with
  | nil => simp
  | cons t ts ih =>
    obtain ⟨ht, hts⟩ := not_or.mp (List.mem_cons.not.mp h)
    rw [List.cons_append, List.takeWhile_cons_of_pos (by simpa using Ne.symm ht), ih hts]

theorem soh_not_mem_of_isDigits (h : IsDigits bs) : SOH ∉ bs :=
  fun hmem => absurd (h _ hmem).1 (by decide)

theorem getElem?_of_span {e : Int} {cs : Bytes} (h : (span bs n e : Result Bytes) = .ok (c :: cs)) :
    bs[n]? = some c := by
  unfold span at h
  split_ifs at h
  · exact absurd (Except.ok.inj h) nofun
  · have hhead := congrArg List.head? (Except.ok.inj h)
    rw [List.head?_take, if_neg (by omega), List.head?_drop, Int.toNat_natCast] at hhead
    exact hhead

theorem take_drop_succ {m : Nat} (h : bs[n + m]? = some c) :
    (bs.drop n).take (m + 1) = (bs.drop n).take m ++ [c] := by
  rw [List.take_add_one, List.getElem?_drop, h]
  rfl

end Pieces

section Frames
variable {data tail : Bytes} {f : Frame}

theorem placesRight_of_fixText (h : fixText f <+: data) : PlacesRight data := by
  obtain ⟨tail, rfl⟩ := h
  have hlen : (headOf f ++ f.body).length = 13 + f.digits.length + decimal f.digits := by
    rw [List.length_append, length_headOf, Frame.length_body, f.length_eq]
    omega
  have hdigits : ((fixText f ++ tail).drop 12).takeWhile (· != SOH) = f.digits := by
    rw [drop_digits, takeWhile_soh (soh_not_mem_of_isDigits f.isDigits)]
  have hcut : fixText f ++ tail =
      headOf f ++ f.body ++ (Frame.trailer (headOf f ++ f.body) ++ tail) := by
    rw [fixText_append, List.append_assoc]
  unfold PlacesRight
  rw [hdigits]
  refine ⟨?_, ?_, ?_, f.digits_ne, ?_, ?_⟩
  · rw [fixText_append, headOf_eq]
    rfl
  · rw [show 9 = 9 + 0 from rfl, ← List.getElem?_drop, drop_version]
    rfl
  · rw [show 11 = 9 + 2 from rfl, ← List.getElem?_drop, drop_version]
    rfl
  · obtain ⟨t, ts, -, hbody⟩ := body_eq f
    exact getElem?_fixText (k := 2) [51, 53] _ (by rw [hbody]; rfl) rfl (by omega)
  · rw [drop_of_append _ _ hcut hlen, hcut, List.take_left' (by rw [Frame.length_trailer]),
      List.take_left' hlen]

section Accepted
variable {mem digits : Bytes} {c : UInt8} {size p : Nat} {checksum e : Int}

theorem Layout.digits_eq (hl : Layout (data ++ tail) size p digits checksum e)
    (h : PlacesRight data) :
    p = 9 ∧ (data.drop 12).takeWhile (· != SOH) = digits ∧
      data.drop 12 = digits ++ SOH :: data.drop (13 + digits.length) ∧
      13 + digits.length + decimal digits + 7 ≤ data.length := by
  obtain ⟨-, hsoh, -, -, -, htrailer⟩ := h
  -- the trailer does not fit behind the end of the data
  have hfit : 13 + ((data.drop 12).takeWhile (· != SOH)).length +
      decimal ((data.drop 12).takeWhile (· != SOH)) + 7 ≤ data.length := by
    have hlen := congrArg List.length htrailer
    rw [Frame.length_trailer, List.length_take, List.length_drop] at hlen
    omega
  have hp : p = 9 := by
    obtain ⟨ts, rest, hdrop, hts, rfl⟩ := hl.version
    have hmem : (data ++ tail)[9]? = some SOH := by
      rw [List.getElem?_append_left (by omega), hsoh]
    rw [drop_of_getElem? hmem] at hdrop
    cases ts with
    | nil => rfl
    | cons t ts =>
      rw [(List.cons.inj hdrop).1] at hts
      exact absurd (List.mem_cons_self ..) hts
  subst hp
  have hin : SOH ∈ data.drop 12 := by
    by_contra hnone
    have hall : (data.drop 12).takeWhile (· != SOH) = data.drop 12 :=
      List.takeWhile_eq_self_iff.mpr fun x hx => by simpa using fun he : x = SOH => hnone (he ▸ hx)
    rw [hall, List.length_drop] at hfit
    omega
  obtain ⟨ds, rest, hds, hfree⟩ := List.eq_append_cons_of_mem hin
  have htake : (data.drop 12).takeWhile (· != SOH) = ds := by rw [hds, takeWhile_soh hfree]
  rw [htake] at hfit ⊢
  obtain rfl : ds = digits := by
    obtain ⟨lrest, hlength⟩ := hl.length
    rw [List.drop_append_of_le_length (by omega), hds, List.append_assoc,
      List.cons_append] at hlength
    have hcut := congrArg (List.takeWhile (· != SOH)) hlength
    rwa [takeWhile_soh hfree, takeWhile_soh (soh_not_mem_of_isDigits hl.isDigits)] at hcut
  refine ⟨rfl, rfl, ?_, hfit⟩
  have hdrop : (data.drop 12).drop (ds.length + 1) = rest :=
    drop_of_append (ds ++ [SOH]) rest (by rw [hds]; simp) (by simp)
  rw [List.drop_drop] at hdrop
  rw [hds, ← hdrop, show 12 + (ds.length + 1) = 13 + ds.length by omega]

structure Placed (data digits : Bytes) (c : UInt8) : Prop where
  three : data[13 + digits.length]? = some 51
  five : data[13 + digits.length + 1]? = some 53
  equals : data[13 + digits.length + 2]? = some 61
  value : data[13 + digits.length + 3]? = some c
  soh : data[13 + digits.length + 4]? = some SOH
  last : data[13 + digits.length + decimal digits - 1]? = some SOH
  trailer : (data.drop (13 + digits.length + decimal digits)).take 7 =
    Frame.trailer (data.take (13 + digits.length + decimal digits))

theorem Layout.placed (hl : Layout (data ++ tail) size p digits checksum e)
    (hsize : (data ++ tail).length < 2 ^ 63)
    (hspan : (span (data ++ tail) (p + digits.length + 4 + 3 : Nat) e : Result Bytes) = .ok [c])
    (h : PlacesRight data) : Placed data digits c := by
  obtain ⟨rfl, hdigits, -, hfit⟩ := hl.digits_eq h
  obtain ⟨-, -, -, -, hequals, htrailer⟩ := h
  rw [hdigits] at hequals htrailer
  have hlen : (data ++ tail).length = data.length + tail.length := List.length_append
  have inside {n : Nat} {b : UInt8} (hn : n < 13 + digits.length + decimal digits + 7)
      (hb : (data ++ tail)[n]? = some b) : data[n]? = some b := by
    rwa [List.getElem?_append_left (by omega)] at hb
  have hstart (k : Nat) : 9 + digits.length + (4 + k) = 13 + digits.length + k := by omega
  -- the MsgType value is the one byte before its SOH
  obtain ⟨ts, trest, htype, -, rfl⟩ := hl.typeEnd
  have hone := length_of_span_eq_ok hspan
  rw [List.length_singleton] at hone
  obtain rfl : ts = [] := List.length_eq_zero_iff.mp (by omega)
  have hsoh : (data ++ tail)[9 + digits.length + 8]? = some SOH := by
    rw [← List.head?_drop, htype]
    rfl
  -- the BodyLength is its value, and leads behind a SOH
  have hlast : (data ++ tail)[13 + digits.length + decimal digits - 1]? = some SOH := by
    have hend := hl.bodyEnd
    rw [hl.checksum_eq, bodyLengthOf_of_lt (by omega), displacement_of_lt (by omega)] at hend
    rw [← byteAt_natCast_eq_ok, ← hend]
    congr 1
    omega
  constructor
  · exact inside (by omega) (hstart 0 ▸ hl.typeTag.1)
  · exact inside (by omega) (hstart 1 ▸ hl.typeTag.2)
  · exact hequals
  · exact inside (by omega) (hstart 3 ▸ getElem?_of_span hspan)
  · exact inside (by omega) (hstart 4 ▸ hsoh)
  · exact inside (by omega) hlast
  · exact htrailer

theorem Placed.five_le (h : Placed data digits c) (hc : c ≠ SOH) : 5 ≤ decimal digits := by
  have hlast := h.last
  by_contra hlt
  obtain hn | hn | hn | hn | hn : decimal digits = 0 ∨ decimal digits = 1 ∨
    decimal digits = 2 ∨ decimal digits = 3 ∨ decimal digits = 4 := by omega
  · -- no body at all: the trailer would begin with the tag of the MsgType
    have hhead := congrArg List.head? h.trailer
    rw [hn, List.head?_take, if_neg (by decide), List.head?_drop, Nat.add_zero, h.three] at hhead
    change some 51 = some 49 at hhead
    exact absurd hhead (by decide)
  · rw [hn] at hlast
    exact absurd (h.three.symm.trans hlast) (by decide)
  · rw [hn] at hlast
    exact absurd (h.five.symm.trans hlast) (by decide)
  · rw [hn] at hlast
    exact absurd (h.equals.symm.trans hlast) (by decide)
  · rw [hn] at hlast
    exact absurd (Option.some.inj (h.value.symm.trans hlast)) hc

theorem Placed.drop_eq (h : Placed data digits c) (hfive : 5 ≤ decimal digits) :
    data.drop (13 + digits.length) = 51 :: 53 :: 61 :: c :: SOH ::
      ((data.drop (13 + digits.length + 5)).take (decimal digits - 5) ++
        data.drop (13 + digits.length + decimal digits)) := by
  have hrest : data.drop (13 + digits.length + 5) =
      (data.drop (13 + digits.length + 5)).take (decimal digits - 5) ++
        data.drop (13 + digits.length + decimal digits) := by
    have hsplit := List.take_append_drop (decimal digits - 5) (data.drop (13 + digits.length + 5))
    rw [List.drop_drop, show 13 + digits.length + 5 + (decimal digits - 5) =
      13 + digits.length + decimal digits by omega] at hsplit
    exact hsplit.symm
  rw [← hrest, drop_of_getElem? h.three, drop_of_getElem? h.five, drop_of_getElem? h.equals,
    drop_of_getElem? h.value, drop_of_getElem? h.soh]

theorem Placed.rest_ends (h : Placed data digits c) :
    (data.drop (13 + digits.length + 5)).take (decimal digits - 5) = [] ∨
      ∃ fields, (data.drop (13 + digits.length + 5)).take (decimal digits - 5) =
        fields ++ [SOH] := by
  cases hm : decimal digits - 5 with
  | zero => exact .inl List.take_zero
  | succ m =>
    refine .inr ⟨(data.drop (13 + digits.length + 5)).take m, take_drop_succ ?_⟩
    rw [← h.last]
    congr 1
    omega

theorem exists_fixText (hl : Layout (data ++ tail) size p digits checksum e)
    (hprotocol : (data.drop 2).take 7 = ascii "FIX.5.0") (hsize : (data ++ tail).length < 2 ^ 63)
    (hspan : (span (data ++ tail) (p + digits.length + 4 + 3 : Nat) e : Result Bytes) = .ok [c])
    (hc : c ≠ SOH) (h : PlacesRight data) : ∃ f, fixText f <+: data := by
  have hplaced := hl.placed hsize hspan h
  have hfive := hplaced.five_le hc
  obtain ⟨rfl, hdigits, hdrop, hfit⟩ := hl.digits_eq h
  obtain ⟨hbegin, h9, h11, hne, -, -⟩ := h
  rw [hdigits] at hne
  have h10 : data[10]? = some 57 := by
    have htag := hl.lengthTag
    rwa [List.getElem?_append_left (by omega)] at htag
  let rest := (data.drop (13 + digits.length + 5)).take (decimal digits - 5)
  have hcount : decimal digits = [c].length + rest.length + 4 := by
    simp only [rest, List.length_take, List.length_drop, List.length_singleton]
    omega
  let f : Frame := ⟨digits, [c], rest, hl.isDigits, hne, List.cons_ne_nil _ _,
    by simpa using hc.symm, hplaced.rest_ends, hcount⟩
  -- the head and the body are the bytes up to the trailer, which is right by assumption
  have hcut : data = headOf f ++ f.body ++ data.drop (13 + digits.length + decimal digits) := by
    have hbytes : data = ascii "8=" ++ (ascii "FIX.5.0" ++ data.drop 9) := by
      have htwo : data.drop 2 = ascii "FIX.5.0" ++ data.drop 9 := drop_of_take hprotocol
      rw [← htwo]
      exact drop_of_take (n := 0) hbegin
    rw [drop_of_getElem? h9, drop_of_getElem? h10, drop_of_getElem? h11, hdrop,
      hplaced.drop_eq hfive] at hbytes
    refine hbytes.trans ?_
    have hnine : ascii "9=" = [57, 61] := rfl
    have htype : ascii "35=" = [51, 53, 61] := rfl
    simp only [headOf, Frame.head, Frame.body, f, rest, hnine, htype, List.append_assoc,
      List.cons_append, List.nil_append]
  have hpre : data.take (13 + digits.length + decimal digits) = headOf f ++ f.body := by
    have hsplit := List.take_append_drop (13 + digits.length + decimal digits) data
    exact List.append_cancel_right (hsplit.trans hcut)
  have htail := drop_of_take (n := 13 + digits.length + decimal digits)
    (k := Frame.trailer (headOf f ++ f.body)) (hpre ▸ hplaced.trailer)
  refine ⟨f, data.drop (13 + digits.length + decimal digits + 7), ?_⟩
  conv_rhs => rw [hcut, htail]
  rw [fixText_append, List.append_assoc]
  rfl

end Accepted
end Frames
end Warhead.Hffix
