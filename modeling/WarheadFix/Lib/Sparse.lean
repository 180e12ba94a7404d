import Mathlib

/-! Lists in which one value is left out. A mask has a bit for every place, set where the entry is
kept; the kept entries follow in their order. -/

namespace Warhead.Lib
universe u

namespace Sparse
variable {α : Type u} {z : α}

def expand (z : α) : Nat → Nat → List α → Option (List α × List α)
  | 0, _, src => some ([], src)
  | n + 1, m, src =>
    if m % 2 = 0 then (expand z n (m / 2) src).map fun r => (z :: r.1, r.2)
    else match src with
      | [] => none
      | c :: cs => (expand z n (m / 2) cs).map fun r => (c :: r.1, r.2)

theorem expand_even {n m : Nat} (hm : m % 2 = 0) (src : List α) :
    expand z (n + 1) m src = (expand z n (m / 2) src).map fun r => (z :: r.1, r.2) := by
  cases src <;> rw [expand, if_pos hm]

theorem expand_odd {n m : Nat} (hm : m % 2 ≠ 0) (c : α) (cs : List α) :
    expand z (n + 1) m (c :: cs) = (expand z n (m / 2) cs).map fun r => (c :: r.1, r.2) := by
  rw [expand, if_neg hm]

theorem expand_odd_nil {n m : Nat} (hm : m % 2 ≠ 0) : expand z (n + 1) m [] = none := by
  rw [expand, if_neg hm]

variable [DecidableEq α]

def mask (z : α) : List α → Nat
  | [] => 0
  | d :: ds => (if d = z then 0 else 1) + 2 * mask z ds

def kept (z : α) (ds : List α) : List α := ds.filter (· ≠ z)

theorem mask_cons_zero (ds : List α) : mask z (z :: ds) = 2 * mask z ds := by
  rw [mask, if_pos rfl, Nat.zero_add]

theorem mask_cons {d : α} (hd : d ≠ z) (ds : List α) : mask z (d :: ds) = 2 * mask z ds + 1 := by
  rw [mask, if_neg hd, Nat.add_comm]

theorem kept_cons_zero (ds : List α) : kept z (z :: ds) = kept z ds :=
  List.filter_cons_of_neg (by simp)

theorem kept_cons {d : α} (hd : d ≠ z) (ds : List α) : kept z (d :: ds) = d :: kept z ds :=
  List.filter_cons_of_pos (by simpa using hd)

theorem expand_mask (ds rest : List α) :
    expand z ds.length (mask z ds) (kept z ds ++ rest) = some (ds, rest) := by
  induction ds with
  | nil => rfl
  | cons d ds ih =>
    by_cases hd : d = z
    · subst hd
      rw [List.length_cons, kept_cons_zero, mask_cons_zero, expand_even (by omega),
        Nat.mul_div_cancel_left _ Nat.two_pos, ih]
      rfl
    · have hhalf : (2 * mask z ds + 1) / 2 = mask z ds := by omega
      rw [List.length_cons, kept_cons hd, mask_cons hd, List.cons_append, expand_odd (by omega),
        hhalf, ih]
      rfl

theorem expand_inv {n m : Nat} {src ds rest : List α} (h : expand z n m src = some (ds, rest)) :
    ds.length = n ∧ ∃ used, src = used ++ rest ∧ kept z ds = kept z used := by
  induction n generalizing m src ds with
  | zero =>
    obtain ⟨rfl, rfl⟩ := Prod.mk.inj (Option.some.inj h)
    exact ⟨rfl, [], rfl, rfl⟩
  | succ n ih =>
    by_cases hm : m % 2 = 0
    · rw [expand_even hm] at h
      obtain ⟨⟨ds', rest'⟩, hr, hds⟩ := Option.map_eq_some_iff.mp h
      obtain ⟨rfl, rfl⟩ := Prod.mk.inj hds
      obtain ⟨hlen, used, hsrc, hkept⟩ := ih hr
      exact ⟨congrArg (· + 1) hlen, used, hsrc, (kept_cons_zero ds').trans hkept⟩
    · cases src with
      | nil =>
        rw [expand_odd_nil hm] at h
        cases h
      | cons c cs =>
        rw [expand_odd hm] at h
        obtain ⟨⟨ds', rest'⟩, hr, hds⟩ := Option.map_eq_some_iff.mp h
        obtain ⟨rfl, rfl⟩ := Prod.mk.inj hds
        obtain ⟨hlen, used, hsrc, hkept⟩ := ih hr
        refine ⟨congrArg (· + 1) hlen, c :: used, congrArg (c :: ·) hsrc, ?_⟩
        by_cases hc : c = z
        · rw [hc, kept_cons_zero, kept_cons_zero, hkept]
        · rw [kept_cons hc, kept_cons hc, hkept]

theorem mask_lt (ds : List α) : mask z ds < 2 ^ ds.length := by
  induction ds with
  | nil => exact Nat.one_pos
  | cons d ds ih =>
    rw [mask, List.length_cons, pow_succ]
    split_ifs <;> omega

theorem length_kept (ds : List α) :
    (kept z ds).length = (List.range ds.length).countP (mask z ds).testBit := by
  induction ds with
  | nil => rfl
  | cons d ds ih =>
    have hrest : (List.range ds.length).countP ((mask z (d :: ds)).testBit ∘ Nat.succ) =
        (kept z ds).length := by
      rw [ih]
      apply List.countP_congr
      intro i _
      have hhalf : mask z (d :: ds) / 2 = mask z ds := by
        rw [mask]
        split_ifs <;> omega
      rw [Function.comp_apply, Nat.testBit_succ, hhalf]
    rw [List.length_cons, List.range_succ_eq_map, List.countP_cons, List.countP_map, hrest]
    by_cases hd : d = z
    · subst hd
      rw [kept_cons_zero, mask_cons_zero, Nat.testBit_zero]
      simp
    · rw [kept_cons hd, mask_cons hd, Nat.testBit_zero]
      simp

end Sparse
end Warhead.Lib
