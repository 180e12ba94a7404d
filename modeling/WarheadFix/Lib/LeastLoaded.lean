import Mathlib

/-! Loads that are put one by one on a place where there are fewest. -/

namespace Warhead.Lib.LeastLoaded
open Finset
variable {ι : Type*} {s : Finset ι} {load : ι → ℤ} {k : ι} {M : ℤ}

def Balanced (s : Finset ι) (load : ι → ℤ) : Prop := ∀ i ∈ s, ∀ j ∈ s, load i ≤ load j + 1

def Least (s : Finset ι) (load : ι → ℤ) (k : ι) : Prop := k ∈ s ∧ ∀ j ∈ s, load k ≤ load j

theorem Least.congr {load' : ι → ℤ} (h : Least s load k) (heq : ∀ j ∈ s, load j = load' j) :
    Least s load' k := by
  refine ⟨h.1, fun j hj => ?_⟩
  rw [← heq k h.1, ← heq j hj]
  exact h.2 j hj

theorem foldl_least (load : ι → ℤ) (is : List ι) (k : ι) :
    is.foldl (fun m i => if load i < load m then i else m) k ∈ k :: is ∧
      ∀ i ∈ k :: is,
        load (is.foldl (fun m i => if load i < load m then i else m) k) ≤ load i := by
  induction is generalizing k with
  | nil => simp
  | cons i is ih =>
    rw [List.foldl_cons]
    obtain ⟨hmem, hle⟩ := ih (if load i < load k then i else k)
    have hfirst := hle _ List.mem_cons_self
    constructor
    · rcases List.mem_cons.mp hmem with h | h
      · rw [h]
        split_ifs <;> simp
      · exact List.mem_cons_of_mem _ (List.mem_cons_of_mem _ h)
    · intro j hj
      rcases List.mem_cons.mp hj with rfl | hj
      · refine hfirst.trans ?_
        split_ifs with h
        · exact h.le
        · exact le_rfl
      rcases List.mem_cons.mp hj with rfl | hj
      · refine hfirst.trans ?_
        split_ifs with h
        · exact le_rfl
        · exact not_lt.mp h
      · exact hle j (List.mem_cons_of_mem _ hj)

theorem Balanced.le_of_sum_le (h : Balanced s load) (hsum : ∑ i ∈ s, load i ≤ #s * M) :
    ∀ i ∈ s, load i ≤ M := by
  intro i hi
  by_contra hgt
  have hall : ∀ j ∈ s, M ≤ load j := fun j hj => by
    have hone := h i hi j hj
    omega
  have hmore : ∑ _j ∈ s, M < ∑ j ∈ s, load j := sum_lt_sum hall ⟨i, hi, not_le.mp hgt⟩
  rw [sum_const, nsmul_eq_mul] at hmore
  exact absurd hsum (not_le.mpr hmore)

section Place
variable [DecidableEq ι]

theorem Balanced.place (h : Balanced s load) (hk : Least s load k) :
    Balanced s (Function.update load k (load k + 1)) := by
  intro i hi j hj
  have hij := h i hi j hj
  have hik := h i hi k hk.1
  have hkj := hk.2 j hj
  rw [Function.update_apply, Function.update_apply]
  split_ifs <;> omega

theorem sum_place (hk : k ∈ s) :
    ∑ i ∈ s, Function.update load k (load k + 1) i = ∑ i ∈ s, load i + 1 := by
  rw [sum_update_of_mem hk, ← add_sum_erase s load hk, sdiff_singleton_eq_erase]
  ring

end Place
end Warhead.Lib.LeastLoaded
