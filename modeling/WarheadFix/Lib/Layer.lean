import Mathlib

/-! Maps built from definitions: the first definition of a key stands, and a second map laid
over a first one replaces what is there and adds what a rule admits. A map is walked in
any order, so the laws are about permutations of its entries. -/

namespace Warhead.Lib
universe u

abbrev Dict (κ ν : Type u) := AList fun _ : κ => ν

abbrev Entry (κ ν : Type u) := Sigma fun _ : κ => ν

namespace Dict
variable {κ ν : Type u} [DecidableEq κ] {d : Dict κ ν} {k k' : κ} {v : ν}

def stage (d : Dict κ ν) (p : κ × ν) : Dict κ ν := if p.1 ∈ d then d else d.insert p.1 p.2

def firstOf (ps : List (κ × ν)) (k : κ) : Option ν := (ps.find? (·.1 = k)).map Prod.snd

theorem mem_stage {p : κ × ν} : k ∈ d.stage p ↔ k = p.1 ∨ k ∈ d := by
  unfold stage
  split_ifs with h
  · exact ⟨.inr, fun hk => hk.elim (fun he => he ▸ h) id⟩
  · exact AList.mem_insert d

theorem lookup_stage {p : κ × ν} :
    (d.stage p).lookup k = (d.lookup k).or (if p.1 = k then some p.2 else none) := by
  unfold stage
  split_ifs with h hk hk
  · obtain ⟨v, hv⟩ := Option.isSome_iff_exists.mp (AList.lookup_isSome.mpr h)
    rw [← hk, hv, Option.some_or]
  · rw [Option.or_none]
  · rw [← hk, AList.lookup_insert, AList.lookup_eq_none.mpr h, Option.none_or]
  · rw [AList.lookup_insert_ne (Ne.symm hk), Option.or_none]

theorem lookup_stageAll (ps : List (κ × ν)) :
    (ps.foldl stage d).lookup k = (d.lookup k).or (firstOf ps k) := by
  induction ps generalizing d with
  | nil => rw [List.foldl_nil, firstOf, List.find?_nil, Option.map_none, Option.or_none]
  | cons p ps ih =>
    rw [List.foldl_cons, ih, lookup_stage, Option.or_assoc]
    unfold firstOf
    split_ifs with hk
    · simp [hk]
    · simp [hk]

theorem mem_stageAll (ps : List (κ × ν)) :
    k ∈ ps.foldl stage d ↔ k ∈ d ∨ k ∈ ps.map Prod.fst := by
  induction ps generalizing d with
  | nil => simp
  | cons p ps ih =>
    rw [List.foldl_cons, ih, mem_stage, List.map_cons, List.mem_cons]
    tauto

theorem length_stageAll (ps : List (κ × ν)) :
    (ps.foldl stage (∅ : Dict κ ν)).keys.length = (ps.map Prod.fst).dedup.length := by
  refine List.Perm.length_eq ?_
  refine (List.perm_ext_iff_of_nodup (AList.keys_nodup _) (List.nodup_dedup _)).mpr fun k => ?_
  rw [List.mem_dedup, ← AList.mem_keys, mem_stageAll]
  simp

def put (admits : κ → Bool) (d : Dict κ ν) (e : Entry κ ν) : Dict κ ν :=
  if e.1 ∈ d ∨ admits e.1 then d.insert e.1 e.2 else d

theorem lookup_put_ne {admits : κ → Bool} {e : Entry κ ν} (h : k ≠ e.1) :
    (d.put admits e).lookup k = d.lookup k := by
  unfold put
  split_ifs
  · exact AList.lookup_insert_ne h
  · rfl

theorem mem_put_ne {admits : κ → Bool} {e : Entry κ ν} (h : k ≠ e.1) :
    k ∈ d.put admits e ↔ k ∈ d := by
  rw [← AList.lookup_isSome, ← AList.lookup_isSome, lookup_put_ne h]

theorem lookup_putAll {admits : κ → Bool} {es : List (Entry κ ν)} (hes : es.NodupKeys) :
    (es.foldl (put admits) d).lookup k =
      if (es.dlookup k).isSome ∧ (k ∈ d ∨ admits k) then es.dlookup k else d.lookup k := by
  induction es generalizing d with
  | nil => simp
  | cons e es ih =>
    obtain ⟨hnot, hes⟩ := List.nodupKeys_cons.mp hes
    rw [List.foldl_cons, ih hes]
    by_cases hk : k = e.1
    · subst hk
      rw [List.dlookup_eq_none.mpr hnot, List.dlookup_cons_eq]
      simp only [Option.isSome_none, Bool.false_eq_true, false_and, if_false, Option.isSome_some,
        true_and]
      unfold put
      split_ifs
      · exact AList.lookup_insert d
      · rfl
    · simp only [List.dlookup_cons_ne _ _ hk, mem_put_ne hk, lookup_put_ne hk]

end Dict
end Warhead.Lib
