import WarheadFix.Lib.Digits
import WarheadFix.Shared.FieldWalk
import WarheadFix.Shared.MessageWriter

/-! Numbers as field values. The reader computes with ints that wrap around, so it gives back
what the writer was given as long as that is an int. -/

namespace Warhead.Hffix
open Lib MessageWriter

def IsInt (n : Int) : Prop := -2 ^ 31 < n ∧ n < 2 ^ 31

instance (n : Int) : Decidable (IsInt n) := instDecidableAnd

theorem IsInt.bmod {n : Int} (h : IsInt n) : Int.bmod n (2 ^ 32) = n := by
  obtain ⟨hlo, hhi⟩ := h
  exact Int.bmod_eq_of_le (by omega) (by omega)

section Digits
variable {ds : Bytes} {c : UInt8}

theorem digitValue_of_digit (h : 48 ≤ c ∧ c ≤ 57) : digitValue c = c.toNat - 48 := by
  have hhi : c.toNat ≤ 57 := UInt8.le_iff_toNat_le.mp h.2
  have hbmod : Int.bmod c.toNat 256 = c.toNat := by
    exact Int.bmod_eq_of_le (by omega) (by omega)
  exact congrArg (· - 48) hbmod

theorem tagStep_bmod (n : Int) (h : 48 ≤ c ∧ c ≤ 57) :
    tagStep (Int.bmod n (2 ^ 32)) c = Int.bmod (n * 10 + (c.toNat - 48)) (2 ^ 32) := by
  rw [tagStep, digitValue_of_digit h, Int.add_bmod, Int.bmod_mul_bmod, ← Int.add_bmod]

theorem foldl_tagStep (hds : IsDigits ds) (n : Nat) :
    ds.foldl tagStep (Int.bmod n (2 ^ 32)) =
      Int.bmod (ds.foldl (fun n c => n * 10 + (c.toNat - 48)) n : Nat) (2 ^ 32) := by
  induction ds generalizing n with
  | nil => rw [List.foldl_nil, List.foldl_nil]
  | cons c ds ih =>
    obtain ⟨hc, hds⟩ := List.forall_mem_cons.mp hds
    have hlo : 48 ≤ c.toNat := UInt8.le_iff_toNat_le.mp hc.1
    have hcast : (n : Int) * 10 + (c.toNat - 48) = (n * 10 + (c.toNat - 48) : Nat) := by omega
    rw [List.foldl_cons, List.foldl_cons, tagStep_bmod n hc, hcast]
    apply ih hds

theorem tagOf_isDigits (hds : IsDigits ds) : tagOf ds = Int.bmod (decimal ds) (2 ^ 32) := by
  exact foldl_tagStep hds 0

theorem foldl_atou (hds : IsDigits ds) (n : Nat) :
    ds.foldl (fun val c => ((val * 10 + digitValue c) % 2 ^ 64).toNat) (n % 2 ^ 64) =
      ds.foldl (fun n c => n * 10 + (c.toNat - 48)) n % 2 ^ 64 := by
  induction ds generalizing n with
  | nil => rfl
  | cons c ds ih =>
    obtain ⟨hc, hds⟩ := List.forall_mem_cons.mp hds
    have hlo : 48 ≤ c.toNat := UInt8.le_iff_toNat_le.mp hc.1
    have hstep : (((n % 2 ^ 64 : Nat) * 10 + digitValue c) % 2 ^ 64).toNat =
        (n * 10 + (c.toNat - 48)) % 2 ^ 64 := by
      rw [digitValue_of_digit hc]
      omega
    rw [List.foldl_cons, List.foldl_cons, hstep]
    apply ih hds

theorem atou_isDigits (hds : IsDigits ds) : atou ds = decimal ds % 2 ^ 64 :=
  foldl_atou hds 0

theorem isTag_isDigits (hds : IsDigits ds) : IsTag ds := by
  intro c hc
  obtain ⟨hlo, hhi⟩ := hds c hc
  refine ⟨?_, ?_⟩
  · rintro rfl
    exact absurd hhi (by decide)
  · rintro rfl
    exact absurd hlo (by decide)

theorem not_mem_isDigits (hds : IsDigits ds) (hc : ¬(48 ≤ c ∧ c ≤ 57)) : c ∉ ds :=
  fun hmem => hc (hds c hmem)

end Digits

/-! ## Whole numbers -/

theorem utoa_eq_digits (n : Nat) : utoa n = digits n := rfl

theorem itoa_of_nonneg {n : Int} (h : 0 ≤ n) : itoa n = digits n.toNat := by
  rw [itoa, if_neg (not_lt.mpr h), utoa_eq_digits]
  congr 1
  omega

theorem foldl_tagStep_digits (n : Nat) :
    (digits n).foldl tagStep 0 = Int.bmod n (2 ^ 32) := by
  have h := tagOf_isDigits (isDigits_digits n)
  rwa [decimal_digits] at h

theorem tagOf_itoa {tag : Int} (h : 0 ≤ tag) (hint : tag < 2 ^ 31) : tagOf (itoa tag) = tag := by
  have hbmod : Int.bmod tag (2 ^ 32) = tag := IsInt.bmod ⟨by omega, hint⟩
  rw [itoa_of_nonneg h, tagOf, foldl_tagStep_digits, Int.toNat_of_nonneg h, hbmod]

theorem isTag_itoa {tag : Int} (h : 0 ≤ tag) : IsTag (itoa tag) := by
  rw [itoa_of_nonneg h]
  exact isTag_isDigits (isDigits_digits _)

section Values
variable {mem : Bytes} {v : FieldValue}

theorem asInt_isDigits {ds : Bytes} (hds : IsDigits ds) (hlt : decimal ds < 2 ^ 31)
    (hspan : (span mem v.begin_ v.end_ : Result Bytes) = .ok ds) :
    asInt mem v = .ok (decimal ds) := by
  have hint : IsInt (decimal ds) := ⟨by omega, by omega⟩
  have hvalue := tagOf_isDigits hds
  rw [hint.bmod] at hvalue
  unfold asInt
  rw [hspan]
  simp only [Bind.bind, Except.bind]
  cases ds with
  | nil => rfl
  | cons c cs =>
    have hc : c ≠ 45 := by
      rintro rfl
      exact absurd (hds 45 (List.mem_cons_self ..)).1 (by decide)
    dsimp only
    rw [if_neg hc]
    exact congrArg Except.ok hvalue

theorem asInt_itoa {n : Int} (h : IsInt n)
    (hspan : (span mem v.begin_ v.end_ : Result Bytes) = .ok (itoa n)) : asInt mem v = .ok n := by
  obtain ⟨hlo, hhi⟩ := h
  by_cases hn : n < 0
  · have habs : ((n.natAbs : Nat) : Int) = -n := by omega
    have hneg : IsInt (-n) := ⟨by omega, by omega⟩
    unfold asInt
    rw [hspan, itoa, if_pos hn, utoa_eq_digits]
    simp only [Bind.bind, Except.bind]
    rw [if_pos trivial, foldl_tagStep_digits, habs, hneg.bmod, neg_neg, IsInt.bmod ⟨hlo, hhi⟩]
    rfl
  · have hnonneg : 0 ≤ n := not_lt.mp hn
    rw [itoa_of_nonneg hnonneg] at hspan
    have hvalue := asInt_isDigits (isDigits_digits _) (by rw [decimal_digits]; omega) hspan
    rwa [decimal_digits, Int.toNat_of_nonneg hnonneg] at hvalue

end Values

/-! ## Numbers of a fixed width -/

section Padded

theorem toNat_ofNat_digit {d : Nat} (hd : d < 10) : (UInt8.ofNat (48 + d)).toNat = 48 + d := by
  apply UInt8.toNat_ofNat_of_lt'
  change 48 + d < 256
  omega

theorem isDigit_ofNat {d : Nat} (hd : d < 10) :
    48 ≤ UInt8.ofNat (48 + d) ∧ UInt8.ofNat (48 + d) ≤ 57 := by
  rw [UInt8.le_iff_toNat_le, UInt8.le_iff_toNat_le, toNat_ofNat_digit hd]
  change 48 ≤ 48 + d ∧ 48 + d ≤ 57
  omega

theorem itoaPadded_succ (width n : Nat) : itoaPadded (width + 1) n =
    itoaPadded width (n / 10 : Nat) ++ [UInt8.ofNat (48 + n % 10)] := by
  have hdiv : (n : Int).tdiv 10 = (n / 10 : Nat) := rfl
  have hmod : (48 + (n : Int).tmod 10).toNat = 48 + n % 10 := rfl
  rw [itoaPadded, hdiv, hmod]

theorem isDigits_itoaPadded (width n : Nat) : IsDigits (itoaPadded width n) := by
  induction width generalizing n with
  | zero => exact fun _ => nofun
  | succ width ih =>
    rw [itoaPadded_succ]
    apply List.forall_mem_append.mpr ⟨ih _, ?_⟩
    intro c hc
    rw [List.mem_singleton.mp hc]
    exact isDigit_ofNat (Nat.mod_lt _ (by decide))

theorem decimal_itoaPadded (width n : Nat) : decimal (itoaPadded width n) = n % 10 ^ width := by
  induction width generalizing n with
  | zero => exact (Nat.mod_one n).symm
  | succ width ih =>
    have hsub : 48 + n % 10 - 48 = n % 10 := Nat.add_sub_cancel_left ..
    rw [itoaPadded_succ, decimal_append_singleton, ih,
      toNat_ofNat_digit (Nat.mod_lt _ (by decide)), hsub, Nat.pow_succ', Nat.mod_mul]
    ring

theorem asInt_itoaPadded {mem : Bytes} {v : FieldValue} {width : Nat} {n : Int} (h : 0 ≤ n)
    (hlt : n < 10 ^ width) (hwidth : width ≤ 9)
    (hspan : (span mem v.begin_ v.end_ : Result Bytes) = .ok (itoaPadded width n)) :
    asInt mem v = .ok n := by
  obtain ⟨k, rfl⟩ := Int.eq_ofNat_of_zero_le h
  have hk : k < 10 ^ width := by exact_mod_cast hlt
  have hsmall : 10 ^ width ≤ 10 ^ 9 := Nat.pow_le_pow_right (by decide) hwidth
  have hvalue : decimal (itoaPadded width k) = k := by
    rw [decimal_itoaPadded, Nat.mod_eq_of_lt hk]
  have hread := asInt_isDigits (isDigits_itoaPadded width k) (by rw [hvalue]; omega) hspan
  rwa [hvalue] at hread

end Padded

/-! ## Decimals -/

def atodStep (s : Int × Int × Bool) (c : UInt8) : Int × Int × Bool :=
  if c = 46 then (s.1, s.2.1, true)
  else (tagStep s.1 c, if s.2.2 then s.2.1 - 1 else s.2.1, s.2.2)

theorem atodStep_point (s : Int × Int × Bool) : atodStep s 46 = (s.1, s.2.1, true) := if_pos rfl

theorem atodStep_digit (m : Nat) (e : Int) (point : Bool) :
    atodStep (Int.bmod (m / 10 : Nat) (2 ^ 32), e, point) (UInt8.ofNat (48 + m % 10)) =
      (Int.bmod m (2 ^ 32), if point then e - 1 else e, point) := by
  have hd : m % 10 < 10 := Nat.mod_lt _ (by decide)
  have hdigit := isDigit_ofNat hd
  have hpoint : UInt8.ofNat (48 + m % 10) ≠ 46 := by
    intro h
    rw [h] at hdigit
    exact absurd hdigit.1 (by decide)
  have hvalue : ((m / 10 : Nat) : Int) * 10 + ((UInt8.ofNat (48 + m % 10)).toNat - 48) = m := by
    rw [toNat_ofNat_digit hd]
    omega
  rw [atodStep, if_neg hpoint]
  dsimp only
  rw [tagStep_bmod _ hdigit, hvalue]

theorem exponent_step {e : Int} :
    (if decide (e < 0) = true then min (e + 1) 0 - 1 else min (e + 1) 0) = min e 0 := by
  split_ifs with hneg
  · have hlt : e < 0 := of_decide_eq_true hneg
    omega
  · have hge : ¬e < 0 := fun hlt => hneg (decide_eq_true hlt)
    omega

theorem foldr_dtoaReversed {fuel m : Nat} {e : Int} (hfuel : m + (-e).toNat < fuel) :
    (dtoaReversed fuel m e).foldr (fun c s => atodStep s c) (0, 0, false) =
      (Int.bmod m (2 ^ 32), min e 0, decide (e < 0)) := by
  induction fuel generalizing m e with
  | zero => exact absurd hfuel (Nat.not_lt_zero _)
  | succ fuel ih =>
    let rest :=
      if 0 < m / 10 ∨ e + 1 < 1 then dtoaReversed fuel (m / 10) (e + 1) else []
    have hrest : rest.foldr (fun c s => atodStep s c) (0, 0, false) =
        (Int.bmod (m / 10 : Nat) (2 ^ 32), min (e + 1) 0, decide (e + 1 < 0)) := by
      by_cases hmore : 0 < m / 10 ∨ e + 1 < 1
      · change (if 0 < m / 10 ∨ e + 1 < 1 then _ else _ : Bytes).foldr _ _ = _
        rw [if_pos hmore]
        apply ih
        omega
      · have hm : m / 10 = 0 := by omega
        have he : min (e + 1) 0 = 0 := by omega
        have hnot : decide (e + 1 < 0) = false := decide_eq_false (by omega)
        change (if 0 < m / 10 ∨ e + 1 < 1 then _ else _ : Bytes).foldr _ _ = _
        rw [if_neg hmore, hm, he, hnot]
        rfl
    change (UInt8.ofNat (48 + m % 10) :: (if e + 1 = 0 then 46 :: rest else rest)).foldr _ _ = _
    rw [List.foldr_cons]
    by_cases hpoint : e + 1 = 0
    · -- the point is written between this digit and the others
      have hlt : decide (e < 0) = true := decide_eq_true (by omega)
      have hmin : min e 0 = 0 - 1 := by omega
      have hzero : min (e + 1) 0 = 0 := by omega
      have hstep := atodStep_digit m 0 true
      rw [if_pos rfl] at hstep
      rw [if_pos hpoint, List.foldr_cons, hrest, hlt, hmin, hzero, atodStep_point, hstep]
    · have hsame : decide (e + 1 < 0) = decide (e < 0) := decide_eq_decide.mpr (by omega)
      rw [if_neg hpoint, hrest, atodStep_digit, hsame, exponent_step]

theorem mem_dtoaReversed {fuel m : Nat} {e : Int} {c : UInt8} (h : c ∈ dtoaReversed fuel m e) :
    c = 46 ∨ (48 ≤ c ∧ c ≤ 57) := by
  induction fuel generalizing m e with
  | zero => exact absurd h List.not_mem_nil
  | succ fuel ih =>
    have hrest : c ∈ (if 0 < m / 10 ∨ e + 1 < 1 then dtoaReversed fuel (m / 10) (e + 1) else []) →
        c = 46 ∨ (48 ≤ c ∧ c ≤ 57) := by
      split_ifs
      · exact ih
      · exact fun h => absurd h List.not_mem_nil
    rw [dtoaReversed, List.mem_cons] at h
    rcases h with rfl | h
    · exact .inr (isDigit_ofNat (Nat.mod_lt _ (by decide)))
    · by_cases hpoint : e + 1 = 0
      · rw [if_pos hpoint] at h
        exact (List.mem_cons.mp h).elim .inl hrest
      · rw [if_neg hpoint] at h
        exact hrest h

theorem head?_reverse_dtoaReversed (fuel m : Nat) (e : Int) :
    (dtoaReversed fuel m e).reverse.head? ≠ some 45 := by
  intro h
  rcases mem_dtoaReversed (List.mem_reverse.mp (List.mem_of_mem_head? h)) with hpoint | hdigit
  · exact absurd hpoint (by decide)
  · exact absurd hdigit.1 (by decide)

theorem foldl_dtoa (m : Int) (e : Int) :
    (dtoaReversed (m.natAbs + e.natAbs + 2) m.natAbs e).reverse.foldl atodStep (0, 0, false) =
      (Int.bmod m.natAbs (2 ^ 32), min e 0, decide (e < 0)) := by
  rw [List.foldl_reverse]
  exact foldr_dtoaReversed (by omega)

theorem asDecimal_dtoa {mem : Bytes} {v : FieldValue} {m e : Int} (h : IsInt m)
    (hspan : (span mem v.begin_ v.end_ : Result Bytes) = .ok (dtoa m e)) :
    asDecimal mem v = .ok (m, min e 0) := by
  let text := (dtoaReversed (m.natAbs + e.natAbs + 2) m.natAbs e).reverse
  have hhead : text.head? ≠ some 45 := head?_reverse_dtoaReversed _ _ _
  have hfold := foldl_dtoa m e
  obtain ⟨hlo, hhi⟩ := h
  unfold asDecimal
  rw [hspan]
  by_cases hm : m < 0
  · have hdtoa : dtoa m e = 45 :: text := if_pos hm
    have habs : IsInt m.natAbs := ⟨by omega, by omega⟩
    rw [habs.bmod] at hfold
    have hneg : Int.bmod (-(m.natAbs : Int)) (2 ^ 32) = m := by
      rw [show -(m.natAbs : Int) = m by omega]
      exact IsInt.bmod ⟨hlo, hhi⟩
    rw [hdtoa]
    change (.ok (Int.bmod (-(text.foldl atodStep (0, 0, false)).1) (2 ^ 32),
      (text.foldl atodStep (0, 0, false)).2.1) : Result (Int × Int)) = _
    rw [hfold, hneg]
  · have hdtoa : dtoa m e = text := if_neg hm
    have habs : (m.natAbs : Int) = m := by omega
    rw [habs, IsInt.bmod ⟨hlo, hhi⟩] at hfold
    rw [hdtoa]
    simp only [Bind.bind, Except.bind, if_neg hhead]
    change (.ok ((text.foldl atodStep (0, 0, false)).1,
      (text.foldl atodStep (0, 0, false)).2.1) : Result (Int × Int)) = _
    rw [hfold]

/-! ## No text of a number ends a field -/

section NotSoh

theorem soh_not_mem_digits (n : Nat) : SOH ∉ digits n :=
  not_mem_isDigits (isDigits_digits n) (by decide)

theorem soh_not_mem_itoaPadded (width : Nat) (x : Int) : SOH ∉ itoaPadded width x := by
  induction width generalizing x with
  | zero => exact List.not_mem_nil
  | succ width ih =>
    intro h
    rw [itoaPadded, List.mem_append, List.mem_singleton] at h
    refine h.elim (ih _) fun hlast => ?_
    have hmod : -10 < x.tmod 10 ∧ x.tmod 10 < 10 :=
      ⟨Int.lt_tmod_of_pos x (by decide), Int.tmod_lt_of_pos x (by decide)⟩
    have hvalue := congrArg UInt8.toNat hlast
    rw [UInt8.toNat_ofNat'] at hvalue
    change 1 = _ at hvalue
    omega

theorem soh_not_mem_timestampText (t : Timestamp) : SOH ∉ timestampText t := by
  simp only [timestampText, List.mem_append, List.mem_singleton, soh_not_mem_itoaPadded]
  decide

end NotSoh

end Warhead.Hffix
