import WarheadFix.Lib.Seek
import WarheadFix.Shared.ReaderShape

/-! The fields of a message as its bytes give them, and the searches of the reader over them. A
field is a tag without a value, a tag with a value, or a data field after its length. -/

namespace Warhead.Hffix
open Lib

/-! ## Scanning -/

section Scans
variable {cs ts v rest : Bytes} {tag : Int} {n k : Nat} {c : UInt8}

theorem scanTag_ok {r : Int × Nat × UInt8} (h : scanTag cs tag n = .ok r) :
    ∃ ts rest, cs = ts ++ r.2.2 :: rest ∧ (∀ d ∈ ts, d ≠ 61 ∧ d ≠ SOH) ∧
      (r.2.2 = 61 ∨ r.2.2 = SOH) ∧ r.1 = ts.foldl tagStep tag ∧ r.2.1 = n + ts.length := by
  induction cs generalizing tag n with
  | nil => cases h
  | cons c cs ih =>
    unfold scanTag at h
    split_ifs at h with hc
    · cases h
      exact ⟨[], cs, rfl, fun _ hd => absurd hd List.not_mem_nil, hc, rfl, rfl⟩
    · obtain ⟨ts, rest, hcs, hts, hend, htag, hlength⟩ := ih h
      refine ⟨c :: ts, rest, congrArg (c :: ·) hcs, ?_, hend, htag, ?_⟩
      · exact List.forall_mem_cons.mpr ⟨not_or.mp hc, hts⟩
      · rw [hlength, List.length_cons, Nat.add_right_comm, Nat.add_assoc]

theorem scanTag_append (hts : ∀ d ∈ ts, d ≠ 61 ∧ d ≠ SOH) (hc : c = 61 ∨ c = SOH) :
    scanTag (ts ++ c :: rest) tag n = .ok (ts.foldl tagStep tag, n + ts.length, c) := by
  induction ts generalizing tag n with
  | nil => exact if_pos hc
  | cons d ts ih =>
    obtain ⟨hd, hts⟩ := List.forall_mem_cons.mp hts
    rw [List.cons_append, scanTag, if_neg (not_or.mpr hd), ih hts, List.length_cons,
      Nat.add_right_comm, Nat.add_assoc]
    rfl

theorem scanDataTag_ok {r : Int × Nat} (h : scanDataTag cs tag n = .ok r) :
    ∃ ts rest, cs = ts ++ 61 :: rest ∧ 61 ∉ ts ∧ r.1 = ts.foldl tagStep tag ∧
      r.2 = n + ts.length := by
  induction cs generalizing tag n with
  | nil => cases h
  | cons c cs ih =>
    unfold scanDataTag at h
    split_ifs at h with hc
    · cases h
      exact ⟨[], cs, congrArg (· :: cs) hc, List.not_mem_nil, rfl, rfl⟩
    · obtain ⟨ts, rest, hcs, hts, htag, hlength⟩ := ih h
      refine ⟨c :: ts, rest, congrArg (c :: ·) hcs, ?_, htag, ?_⟩
      · exact List.not_mem_cons_of_ne_of_not_mem (Ne.symm hc) hts
      · rw [hlength, List.length_cons, Nat.add_right_comm, Nat.add_assoc]

theorem scanDataTag_append (hts : 61 ∉ ts) :
    scanDataTag (ts ++ 61 :: rest) tag n = .ok (ts.foldl tagStep tag, n + ts.length) := by
  induction ts generalizing tag n with
  | nil => exact if_pos rfl
  | cons d ts ih =>
    have hd := List.ne_of_not_mem_cons hts
    have hrest := List.not_mem_of_not_mem_cons hts
    rw [List.cons_append, scanDataTag, if_neg (Ne.symm hd), ih hrest, List.length_cons,
      Nat.add_right_comm, Nat.add_assoc]
    rfl

theorem findSoh_ok {m : Nat} (h : findSoh cs k n = .ok m) :
    (∃ v rest, cs = v ++ SOH :: rest ∧ SOH ∉ v ∧ v.length < k ∧ m = n + v.length) ∨
      SOH ∉ cs.take k := by
  induction k generalizing cs n with
  | zero => exact .inr (by rw [List.take_zero]; exact List.not_mem_nil)
  | succ k ih =>
    cases cs with
    | nil => cases h
    | cons c cs =>
      unfold findSoh at h
      split_ifs at h with hc
      · cases h
        exact .inl ⟨[], cs, congrArg (· :: cs) hc, List.not_mem_nil, Nat.succ_pos k, rfl⟩
      · obtain ⟨v, rest, hcs, hv, hlt, hm⟩ | hnone := ih h
        · refine .inl ⟨c :: v, rest, congrArg (c :: ·) hcs, ?_, Nat.succ_lt_succ hlt, ?_⟩
          · exact List.not_mem_cons_of_ne_of_not_mem (Ne.symm hc) hv
          · rw [hm, List.length_cons, Nat.add_right_comm, Nat.add_assoc]
        · exact .inr (List.not_mem_cons_of_ne_of_not_mem (Ne.symm hc) hnone)

theorem findSoh_append (hv : SOH ∉ v) (hlt : v.length < k) :
    findSoh (v ++ SOH :: rest) k n = .ok (n + v.length) := by
  induction v generalizing k n with
  | nil =>
    obtain ⟨k, rfl⟩ := Nat.exists_eq_add_one.mpr hlt
    exact if_pos rfl
  | cons d v ih =>
    have hd := List.ne_of_not_mem_cons hv
    have hrest := List.not_mem_of_not_mem_cons hv
    obtain ⟨k, rfl⟩ := Nat.exists_eq_add_one.mpr ((Nat.succ_pos _).trans hlt)
    rw [List.cons_append, findSoh, if_neg (Ne.symm hd), ih hrest (Nat.lt_of_succ_lt_succ hlt),
      List.length_cons, Nat.add_right_comm, Nat.add_assoc]

end Scans

/-! ## Pointers -/

section Pointers
variable {mem us vs : Bytes} {p : Int}

theorem nonneg_of_suffix (h : suffix mem p = us) (hne : us ≠ []) : 0 ≤ p := by
  by_contra hp
  rw [suffix, if_pos (not_le.mp hp)] at h
  exact hne h.symm

theorem suffix_append (h : suffix mem p = us ++ vs) : suffix mem (p + us.length) = vs := by
  cases us with
  | nil => simpa using h
  | cons u us =>
    have hp : 0 ≤ p := nonneg_of_suffix h (List.cons_ne_nil _ _)
    obtain ⟨m, rfl⟩ := Int.eq_ofNat_of_zero_le hp
    rw [suffix_natCast] at h
    rw [← Nat.cast_add, suffix_natCast, ← List.drop_drop, h, List.drop_left]

theorem suffix_cons {c : UInt8} (h : suffix mem p = us ++ c :: vs) :
    suffix mem (p + us.length + 1) = vs := by
  have hcons : us ++ c :: vs = (us ++ [c]) ++ vs := by rw [List.append_assoc]; rfl
  rw [hcons] at h
  have hrest := suffix_append h
  rw [List.length_append, List.length_singleton, Nat.cast_add, Nat.cast_one, ← add_assoc] at hrest
  exact hrest

theorem span_of_suffix (h : suffix mem p = us ++ vs) :
    (span mem p (p + us.length) : Result Bytes) = .ok us := by
  cases us with
  | nil =>
    rw [span, if_pos (by simp)]
  | cons u us =>
    have hp : 0 ≤ p := nonneg_of_suffix h (List.cons_ne_nil _ _)
    obtain ⟨m, rfl⟩ := Int.eq_ofNat_of_zero_le hp
    rw [suffix_natCast] at h
    exact span_of_drop vs h rfl

theorem getElem?_of_byteAt {c : UInt8} {n : Nat} (hp : 0 ≤ p)
    (h : (byteAt mem (p + n) : Result UInt8) = .ok c) : (suffix mem p)[n]? = some c := by
  obtain ⟨m, rfl⟩ := Int.eq_ofNat_of_zero_le hp
  rw [← Nat.cast_add] at h
  rw [suffix_natCast, List.getElem?_drop]
  exact byteAt_natCast_eq_ok.mp h

end Pointers

/-! ## Fields -/

def IsTag (ts : Bytes) : Prop := ∀ c ∈ ts, c ≠ 61 ∧ c ≠ SOH

def tagOf (ts : Bytes) : Int := ts.foldl tagStep 0

theorem scanTag_isTag {ts rest : Bytes} {c : UInt8} (hts : IsTag ts) (hc : c = 61 ∨ c = SOH) :
    scanTag (ts ++ c :: rest) 0 0 = .ok (tagOf ts, ts.length, c) := by
  rw [scanTag_append hts hc, Nat.zero_add]
  rfl

theorem scanDataTag_tagOf {ds rest : Bytes} (hds : 61 ∉ ds) :
    scanDataTag (ds ++ 61 :: rest) 0 0 = .ok (tagOf ds, ds.length) := by
  rw [scanDataTag_append hds, Nat.zero_add]
  rfl

theorem findSoh_value {v rest : Bytes} {k : Nat} (hv : SOH ∉ v) (hlt : v.length < k) :
    findSoh (v ++ SOH :: rest) k 0 = .ok v.length := by
  rw [findSoh_append hv hlt, Nat.zero_add]

/-- The bytes at `p` are a field, with this iterator on it. A data field stands behind its
length, and its value is as long as that says, whatever is there. -/
inductive FieldAt (mem : Bytes) (messageEnd p : Int) : ConstIterator → Prop where
  | bare {ts rest : Bytes} (htext : suffix mem p = ts ++ SOH :: rest) (hts : IsTag ts) :
      FieldAt mem messageEnd p ⟨p, ⟨tagOf ts, ⟨p + ts.length, p + ts.length⟩⟩⟩
  | plain {ts v rest : Bytes} (htext : suffix mem p = ts ++ 61 :: (v ++ SOH :: rest))
      (hts : IsTag ts) (hv : SOH ∉ v) (hend : p + ts.length + 1 + v.length < messageEnd)
      (htag : isTagADataLength (tagOf ts) = false) :
      FieldAt mem messageEnd p
        ⟨p, ⟨tagOf ts, ⟨p + ts.length + 1, p + ts.length + 1 + v.length⟩⟩⟩
  | data {ts v ds rest : Bytes} {q : Int}
      (htext : suffix mem p = ts ++ 61 :: (v ++ SOH :: (ds ++ 61 :: rest))) (hts : IsTag ts)
      (hv : SOH ∉ v) (hend : p + ts.length + 1 + v.length < messageEnd)
      (htag : isTagADataLength (tagOf ts) = true) (hds : 61 ∉ ds)
      (hq : q = p + ts.length + 1 + v.length + 1) :
      FieldAt mem messageEnd p
        ⟨q, ⟨tagOf ds, ⟨q + ds.length + 1, q + ds.length + 1 + displacement (atou v)⟩⟩⟩

section Increment
variable {mem : Bytes} {r : MessageReader} {i j : ConstIterator}

theorem increment_of_fieldAt (h : FieldAt mem r.messageEnd (i.current.value.end_ + 1) j) :
    increment mem r i = .ok j := by
  have hsoh : (61 : UInt8) ≠ SOH := by decide
  unfold increment
  dsimp only
  cases h with
  | bare htext hts =>
    rw [htext, scanTag_isTag hts (.inr rfl)]
    simp only [Bind.bind, Except.bind, if_pos]
    rfl
  | @plain ts v rest htext hts hv hend htag =>
    have hvalue := suffix_cons htext
    have hrange : v.length <
        (r.messageEnd - (i.current.value.end_ + 1 + ts.length + 1)).toNat := by omega
    have hnot : ¬isTagADataLength (tagOf ts) = true := by
      rw [htag]
      exact Bool.false_ne_true
    rw [htext, scanTag_isTag hts (.inl rfl)]
    simp only [Bind.bind, Except.bind, if_neg hsoh]
    rw [if_neg (by omega), hvalue, findSoh_value hv hrange]
    simp only [if_neg hnot]
    rfl
  | @data ts v ds rest q htext hts hv hend htag hds hq =>
    have hvalue := suffix_cons htext
    have hdata := suffix_cons hvalue
    have hrange : v.length <
        (r.messageEnd - (i.current.value.end_ + 1 + ts.length + 1)).toNat := by omega
    rw [htext, scanTag_isTag hts (.inl rfl)]
    simp only [Bind.bind, Except.bind, if_neg hsoh]
    rw [if_neg (by omega), hvalue, findSoh_value hv hrange]
    simp only [if_pos htag]
    rw [span_of_suffix hvalue]
    simp only []
    rw [hdata, scanDataTag_tagOf hds, hq]
    rfl

theorem findSoh_messageEnd {mem : Bytes} {ts rest : Bytes} {messageEnd p : Int} {n : Nat}
    (hsoh : (byteAt mem (messageEnd - 1) : Result UInt8) = .ok SOH)
    (htext : suffix mem p = ts ++ 61 :: rest) (hle : p + ts.length + 1 ≤ messageEnd)
    (h : findSoh rest (messageEnd - (p + ts.length + 1)).toNat 0 = .ok n) :
    ∃ v after, rest = v ++ SOH :: after ∧ SOH ∉ v ∧ p + ts.length + 1 + v.length < messageEnd ∧
      n = v.length := by
  -- the last byte of the message is a SOH
  obtain ⟨v, after, hrest, hv, hlt, hn⟩ | hnone := findSoh_ok h
  · refine ⟨v, after, hrest, hv, by omega, ?_⟩
    rw [hn, Nat.zero_add]
  · -- Otherwise the last byte would be the '=' before the value or a byte of it.
    have hp : 0 ≤ p := by
      apply nonneg_of_suffix htext
      exact List.append_ne_nil_of_right_ne_nil _ (List.cons_ne_nil _ _)
    obtain ⟨k, hk⟩ := Int.eq_ofNat_of_zero_le (sub_nonneg.mpr hle)
    have hlast : messageEnd - 1 = p + (ts.length + k : Nat) := by
      push_cast
      omega
    rw [hlast] at hsoh
    have hbyte := getElem?_of_byteAt hp hsoh
    rw [htext, List.getElem?_append_right (Nat.le_add_right _ _), Nat.add_sub_cancel_left] at hbyte
    rw [hk, Int.toNat_natCast] at hnone
    cases k with
    | zero => exact absurd (Option.some.inj hbyte) (by decide)
    | succ k =>
      have htake : (rest.take (k + 1))[k]? = some SOH := by
        rw [List.getElem?_take_of_lt (Nat.lt_succ_self k)]
        exact hbyte
      exact absurd (List.mem_of_getElem? htake) hnone

theorem fieldAt_of_increment
    (hsoh : (byteAt mem (r.messageEnd - 1) : Result UInt8) = .ok SOH)
    (h : increment mem r i = .ok j) :
    FieldAt mem r.messageEnd (i.current.value.end_ + 1) j := by
  unfold increment at h
  dsimp only at h
  obtain ⟨⟨tag, n, c⟩, htag, h⟩ := bind_eq_ok.mp h
  obtain ⟨ts, rest, htext, hts, hc, rfl, rfl⟩ := scanTag_ok htag
  simp only [Nat.zero_add] at htext hc h
  by_cases hbare : c = SOH
  · rw [if_pos hbare] at h
    cases h
    subst hbare
    exact .bare htext hts
  · have hequals : c = 61 := hc.resolve_right hbare
    subst hequals
    rw [if_neg hbare, suffix_cons htext] at h
    by_cases hrange : r.messageEnd < i.current.value.end_ + 1 + ts.length + 1
    · rw [if_pos hrange] at h
      cases h
    · rw [if_neg hrange] at h
      obtain ⟨n, hfind, h⟩ := bind_eq_ok.mp h
      obtain ⟨v, after, rfl, hv, hend, rfl⟩ :=
        findSoh_messageEnd hsoh htext (not_lt.mp hrange) hfind
      by_cases hlength : isTagADataLength (tagOf ts) = true
      · have hvalue := suffix_cons htext
        rw [show ts.foldl tagStep 0 = tagOf ts from rfl, if_pos hlength,
          span_of_suffix hvalue] at h
        obtain ⟨v', hv', h⟩ := bind_eq_ok.mp h
        cases hv'
        rw [suffix_cons hvalue] at h
        obtain ⟨⟨dtag, n⟩, hdata, h⟩ := bind_eq_ok.mp h
        obtain ⟨ds, after', rfl, hds, rfl, rfl⟩ := scanDataTag_ok hdata
        cases h
        simp only [Nat.zero_add]
        exact .data htext hts hv hend hlength hds rfl
      · rw [show ts.foldl tagStep 0 = tagOf ts from rfl, if_neg hlength] at h
        cases h
        exact .plain htext hts hv hend (Bool.eq_false_iff.mpr hlength)

theorem increment_eq_ok_iff
    (hsoh : (byteAt mem (r.messageEnd - 1) : Result UInt8) = .ok SOH) :
    increment mem r i = .ok j ↔ FieldAt mem r.messageEnd (i.current.value.end_ + 1) j :=
  ⟨fieldAt_of_increment hsoh, increment_of_fieldAt⟩

end Increment
end Warhead.Hffix
