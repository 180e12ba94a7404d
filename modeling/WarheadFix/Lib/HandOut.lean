import Mathlib

/-! A store that hands out each of its items once. Whoever asks for an item again, or after
somebody else, gets nothing for it. -/

namespace Warhead.Lib
universe u v w

section HandOut
variable {ι : Type w} {κ : Type u} {ν : Type v} {store : κ → Option ν} {ks ls : List κ} {k : κ}

def available (store : κ → Option ν) (ks : List κ) : List κ := ks.filter fun k => (store k).isSome

theorem available_append : available store (ks ++ ls) = available store ks ++ available store ls :=
  List.filter_append ..

theorem mem_available : k ∈ available store ks ↔ k ∈ ks ∧ (store k).isSome := List.mem_filter

theorem filterMap_available : (available store ks).filterMap store = ks.filterMap store := by
  induction ks with
  | nil => rfl
  | cons k ks ih =>
    cases hk : store k with
    | none =>
      have hskip : available store (k :: ks) = available store ks :=
        List.filter_cons_of_neg (by simp [hk])
      rw [hskip, ih, List.filterMap_cons_none hk]
    | some v =>
      have hkeep : available store (k :: ks) = k :: available store ks :=
        List.filter_cons_of_pos (by simp [hk])
      rw [hkeep, List.filterMap_cons_some hk, List.filterMap_cons_some hk, ih]

theorem available_eq_nil_iff : available store ks = [] ↔ ks.filterMap store = [] := by
  unfold available
  rw [List.filter_eq_nil_iff, List.filterMap_eq_nil_iff]
  simp only [Option.not_isSome_iff_eq_none]

section Agreeing
variable {other : κ → Option ν} (h : ∀ k ∈ ks, other k = store k)
include h

theorem filterMap_agree : ks.filterMap other = ks.filterMap store := List.filterMap_congr h

theorem available_agree : available other ks = available store ks := by
  apply List.filter_congr
  intro k hk
  rw [h k hk]

end Agreeing

variable [DecidableEq κ]

def drained (store : κ → Option ν) (ks : List κ) : κ → Option ν :=
  fun k => if k ∈ ks then none else store k

def taken (store : κ → Option ν) : List κ → List ν
  | [] => []
  | k :: ks => (store k).toList ++ taken (drained store [k]) ks

def served (store : κ → Option ν) : List (ι × List κ) → List (ι × List ν)
  | [] => []
  | r :: rs => (r.1, taken store r.2) :: served (drained store r.2) rs

theorem drained_nil : drained store [] = store := by
  funext k
  exact if_neg List.not_mem_nil

theorem drained_append : drained store (ks ++ ls) = drained (drained store ks) ls := by
  funext k
  unfold drained
  by_cases hk : k ∈ ks
  · rw [if_pos (List.mem_append_left _ hk), if_pos hk, ite_self]
  · by_cases hl : k ∈ ls
    · rw [if_pos (List.mem_append_right _ hl), if_pos hl]
    · have h : k ∉ ks ++ ls := fun h => (List.mem_append.mp h).elim hk hl
      rw [if_neg h, if_neg hl, if_neg hk]

theorem taken_append : taken store (ks ++ ls) = taken store ks ++ taken (drained store ks) ls := by
  induction ks generalizing store with
  | nil =>
    rw [drained_nil]
    rfl
  | cons k ks ih =>
    show _ ++ taken (drained store [k]) (ks ++ ls) = (_ ++ _) ++ _
    rw [ih, List.append_assoc, ← drained_append]
    rfl

theorem drained_of_not_mem {k : κ} (h : k ∉ ks) : drained store ks k = store k := if_neg h

theorem drained_eq_of_none (h : store k = none) : drained store [k] = store := by
  funext l
  unfold drained
  split_ifs with hl
  · rw [List.mem_singleton.mp hl, h]
  · rfl

theorem filterMap_drained_le : (ls.filterMap (drained store ks)).length ≤
    (ls.filterMap store).length := by
  induction ls with
  | nil => exact le_rfl
  | cons l ls ih =>
    by_cases hl : l ∈ ks
    · have hnone : drained store ks l = none := if_pos hl
      rw [List.filterMap_cons_none hnone, List.filterMap_cons]
      cases store l with
      | none => exact ih
      | some v => exact ih.trans (Nat.le_succ _)
    · have hsame : drained store ks l = store l := if_neg hl
      rw [List.filterMap_cons, List.filterMap_cons, hsame]
      cases store l with
      | none => exact ih
      | some v => exact Nat.succ_le_succ ih

theorem filterMap_drained_lt (hk : k ∈ ls) (h : (store k).isSome) :
    (ls.filterMap (drained store [k])).length < (ls.filterMap store).length := by
  obtain ⟨before, after, rfl⟩ := List.append_of_mem hk
  obtain ⟨v, hv⟩ := Option.isSome_iff_exists.mp h
  have hnone : drained store [k] k = none := if_pos (List.mem_singleton_self k)
  rw [List.filterMap_append, List.filterMap_append, List.filterMap_cons_none hnone,
    List.filterMap_cons_some hv, List.length_append, List.length_append, List.length_cons]
  have hbefore : (before.filterMap (drained store [k])).length ≤ _ := filterMap_drained_le
  have hafter : (after.filterMap (drained store [k])).length ≤ _ := filterMap_drained_le
  exact Nat.add_lt_add_of_le_of_lt hbefore (Nat.lt_succ_of_le hafter)

theorem taken_cons_none (h : store k = none) : taken store (k :: ks) = taken store ks := by
  rw [taken, h, drained_eq_of_none h]
  rfl

theorem taken_cons_some {v : ν} (h : store k = some v) :
    taken store (k :: ks) = v :: taken (drained store [k]) ks := by
  rw [taken, h]
  rfl

theorem length_taken_le : (taken store ks).length ≤ (ks.filterMap store).length := by
  induction ks generalizing store with
  | nil => exact le_rfl
  | cons k ks ih =>
    have hrest : (taken (drained store [k]) ks).length ≤ (ks.filterMap store).length :=
      ih.trans filterMap_drained_le
    cases hk : store k with
    | none =>
      rw [taken_cons_none hk, List.filterMap_cons_none hk]
      exact ih
    | some v =>
      rw [taken_cons_some hk, List.filterMap_cons_some hk]
      exact Nat.succ_le_succ hrest

/-! ## One request -/

theorem taken_eq_iff : taken store ks = ks.filterMap store ↔ (available store ks).Nodup := by
  induction ks generalizing store with
  | nil => exact ⟨fun _ => List.nodup_nil, fun _ => rfl⟩
  | cons k ks ih =>
    cases hk : store k with
    | none =>
      have hav : available store (k :: ks) = available store ks :=
        List.filter_cons_of_neg (by simp [hk])
      rw [taken_cons_none hk, List.filterMap_cons_none hk, hav]
      exact ih
    | some v =>
      have hsome : (store k).isSome := Option.isSome_iff_exists.mpr ⟨v, hk⟩
      have hav : available store (k :: ks) = k :: available store ks :=
        List.filter_cons_of_pos hsome
      rw [taken_cons_some hk, List.filterMap_cons_some hk, hav, List.nodup_cons, mem_available,
        List.cons.injEq]
      by_cases hmem : k ∈ ks
      · -- The second time round there is nothing left under this key.
        have hlt := length_taken_le.trans_lt (filterMap_drained_lt hmem hsome)
        constructor
        · exact fun heq => absurd (congrArg List.length heq.2) hlt.ne
        · exact fun hnodup => absurd ⟨hmem, hsome⟩ hnodup.1
      · have hagree : ∀ l ∈ ks, drained store [k] l = store l := by
          intro l hl
          apply drained_of_not_mem
          rw [List.mem_singleton]
          exact fun he => hmem (he ▸ hl)
        have hrest := @ih (drained store [k])
        rw [filterMap_agree hagree, available_agree hagree] at hrest
        rw [hrest]
        constructor
        · exact fun h => ⟨fun hk => hmem hk.1, h.2⟩
        · exact fun h => ⟨rfl, h.2⟩

/-! ## Many requests -/

omit [DecidableEq κ] in
theorem nodup_flatMap_keyed {β : Type v} {rs : List (ι × β)} {f : ι → List κ}
    (hkeys : rs.Pairwise fun r q => r.1 ≠ q.1) :
    (rs.flatMap fun r => f r.1).Nodup ↔
      (∀ r ∈ rs, (f r.1).Nodup) ∧
        ∀ r ∈ rs, ∀ q ∈ rs, r.1 ≠ q.1 → (f r.1).Disjoint (f q.1) := by
  rw [List.nodup_flatMap]
  apply and_congr_right
  intro _
  constructor
  · intro h r hr q hq hne
    have hsymm : Std.Symm fun r q : ι × β => (f r.1).Disjoint (f q.1) := ⟨fun _ _ h => h.symm⟩
    exact List.Pairwise.forall h hr hq fun he => hne (congrArg Prod.fst he)
  · intro h
    apply hkeys.imp_of_mem
    intro r q hr hq hne
    exact h r hr q hq hne

theorem served_flatMap (rs : List (ι × List κ)) :
    (served store rs).flatMap (·.2) = taken store (rs.flatMap (·.2)) := by
  induction rs generalizing store with
  | nil => rfl
  | cons r rs ih =>
    rw [served, List.flatMap_cons, List.flatMap_cons, ih, taken_append]

theorem served_of_nodup {rs : List (ι × List κ)}
    (h : (available store (rs.flatMap (·.2))).Nodup) :
    served store rs = rs.map fun r => (r.1, r.2.filterMap store) := by
  induction rs generalizing store with
  | nil => rfl
  | cons r rs ih =>
    rw [List.flatMap_cons, available_append, List.nodup_append] at h
    obtain ⟨hfirst, hrest, hdisjoint⟩ := h
    have hagree : ∀ k ∈ rs.flatMap (·.2), drained store r.2 k = store k := by
      intro k hk
      by_cases hr : k ∈ r.2
      · have hnone : ¬(store k).isSome := fun hs =>
          hdisjoint k (mem_available.mpr ⟨hr, hs⟩) k (mem_available.mpr ⟨hk, hs⟩) rfl
        rw [Option.not_isSome_iff_eq_none.mp hnone]
        exact (if_pos hr).trans rfl
      · exact drained_of_not_mem hr
    have hothers := @ih (drained store r.2) (by rwa [available_agree hagree])
    rw [served, List.map_cons, taken_eq_iff.mpr hfirst, hothers]
    congr 1
    apply List.map_congr_left
    intro q hq
    rw [filterMap_agree fun k hk => hagree k (List.mem_flatMap.mpr ⟨q, hq, hk⟩)]

theorem served_eq_iff (rs : List (ι × List κ)) :
    (served store rs = rs.map fun r => (r.1, r.2.filterMap store)) ↔
      (available store (rs.flatMap (·.2))).Nodup := by
  constructor
  · intro h
    have hflat := congrArg (List.flatMap (·.2)) h
    rw [served_flatMap, List.flatMap_map] at hflat
    rw [← taken_eq_iff, hflat, List.filterMap_flatMap]
  · exact served_of_nodup

theorem map_fst_served (rs : List (ι × List κ)) : (served store rs).map (·.1) = rs.map (·.1) := by
  induction rs generalizing store with
  | nil => rfl
  | cons r rs ih => rw [served, List.map_cons, List.map_cons, ih]

theorem length_le_of_mem_served {rs : List (ι × List κ)} {p : ι × List ν}
    (h : p ∈ served store rs) :
    ∃ ks, (p.1, ks) ∈ rs ∧ p.2.length ≤ (ks.filterMap store).length := by
  induction rs generalizing store with
  | nil => cases h
  | cons r rs ih =>
    obtain rfl | h := List.mem_cons.mp h
    · exact ⟨r.2, List.mem_cons_self .., length_taken_le⟩
    · obtain ⟨ks, hks, hle⟩ := ih h
      exact ⟨ks, List.mem_cons_of_mem _ hks, hle.trans filterMap_drained_le⟩

end HandOut
end Warhead.Lib
