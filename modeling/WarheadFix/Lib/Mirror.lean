import Mathlib

/-! Cells of a memory: a run of them read and written as a list, and the same run from its other
end. -/

namespace Warhead.Lib
universe u
variable {α : Type u} {mem : Nat → α} {addr count i : Nat} {xs : List α}

def mirror (addr count i : Nat) : Nat :=
  if addr ≤ i ∧ i < addr + count then addr + (addr + count - 1 - i) else i

theorem mirror_of_lt (h : i < count) : mirror addr count (addr + i) = addr + (count - 1 - i) := by
  rw [mirror, if_pos (by omega)]
  omega

theorem mirror_of_outside (h : i < addr ∨ addr + count ≤ i) : mirror addr count i = i :=
  if_neg (by omega)

theorem mirror_zero (addr i : Nat) : mirror addr 0 i = i := mirror_of_outside (by omega)

theorem mirror_one (addr i : Nat) : mirror addr 1 i = i := by
  rw [mirror]
  split_ifs with h
  · omega
  · rfl

theorem mirror_mirror (addr count i : Nat) : mirror addr count (mirror addr count i) = i := by
  by_cases h : addr ≤ i ∧ i < addr + count
  · have hinside : mirror addr count i = addr + (addr + count - 1 - i) := if_pos h
    rw [hinside, mirror_of_lt (by omega)]
    omega
  · have houtside : mirror addr count i = i := if_neg h
    rw [houtside, houtside]

theorem swap_mirror (addr count i : Nat) :
    Equiv.swap addr (addr + count + 1) (mirror (addr + 1) count i) = mirror addr (count + 2) i := by
  rw [Equiv.swap_apply_def]
  by_cases h : addr + 1 ≤ i ∧ i < addr + 1 + count
  · have hbetween : mirror (addr + 1) count i = addr + 1 + (addr + 1 + count - 1 - i) := if_pos h
    rw [hbetween, if_neg (by omega), if_neg (by omega), mirror, if_pos (by omega)]
    omega
  · have houtside : mirror (addr + 1) count i = i := if_neg h
    rw [houtside, mirror]
    split_ifs <;> omega

/-! ## Runs as lists -/

def load (mem : Nat → α) (addr count : Nat) : List α :=
  (List.range count).map fun i => mem (addr + i)

def store (mem : Nat → α) (addr : Nat) (xs : List α) : Nat → α :=
  fun i => if addr ≤ i then xs.getD (i - addr) (mem i) else mem i

@[simp] theorem length_load (mem : Nat → α) (addr count : Nat) :
    (load mem addr count).length = count := by
  rw [load, List.length_map, List.length_range]

theorem load_store (mem : Nat → α) (addr : Nat) (xs : List α) :
    load (store mem addr xs) addr xs.length = xs := by
  apply List.ext_getElem
  · exact length_load _ _ _
  · intro i _ hi
    simp only [load, List.getElem_map, List.getElem_range]
    rw [store, if_pos (Nat.le_add_right _ _), Nat.add_sub_cancel_left,
      List.getD_eq_getElem _ _ hi]

theorem load_mirror (mem : Nat → α) (addr count : Nat) :
    load (fun i => mem (mirror addr count i)) addr count = (load mem addr count).reverse := by
  apply List.ext_getElem
  · rw [List.length_reverse, length_load, length_load]
  · intro i hi _
    rw [length_load] at hi
    rw [List.getElem_reverse]
    simp only [load, List.getElem_map, List.getElem_range, List.length_map, List.length_range]
    rw [mirror_of_lt hi]

end Warhead.Lib
