import Mathlib

/-! Lists without what lies at their ends. -/

namespace Warhead.Lib
universe u
variable {α : Type u} {p q : α → Bool} {r s ws : List α} {c : α}

theorem eq_false_of_dropWhile (h : s.dropWhile p = c :: r) : p c = false := by
  have hhead := List.head?_dropWhile_not p s
  rw [h] at hhead
  exact hhead

def strip (p : α → Bool) (s : List α) : List α := (s.dropWhile p).rdropWhile p

theorem rdropWhile_append_of_pos (hws : ∀ c ∈ ws, p c = true) :
    (r ++ ws).rdropWhile p = r.rdropWhile p := by
  have hrev : ∀ c ∈ ws.reverse, p c = true := fun c hc => hws c (List.mem_reverse.mp hc)
  rw [List.rdropWhile, List.reverse_append, List.dropWhile_append_of_pos hrev]
  rfl

theorem rdropWhile_append_cons (hc : p c = false) :
    (r ++ c :: s).rdropWhile p = r ++ c :: s.rdropWhile p := by
  have hrev : (r ++ c :: s).reverse = s.reverse ++ c :: r.reverse := by simp
  have hstop : (c :: r.reverse).dropWhile p = c :: r.reverse :=
    List.dropWhile_cons_of_neg (ne_true_of_eq_false hc)
  rw [List.rdropWhile, hrev, List.dropWhile_append]
  split_ifs with hempty
  · have hs : s.rdropWhile p = [] := by
      rw [List.rdropWhile, List.isEmpty_iff.mp hempty, List.reverse_nil]
    rw [hstop, hs]
    simp
  · rw [List.reverse_append, List.reverse_cons, List.reverse_reverse, List.append_assoc]
    rfl

theorem strip_append (hws : ∀ c ∈ ws, p c = true) : strip p (r ++ ws) = strip p r := by
  rw [strip, strip, List.dropWhile_append]
  split_ifs with hempty
  · rw [List.dropWhile_eq_nil_iff.mpr hws, List.isEmpty_iff.mp hempty]
  · exact rdropWhile_append_of_pos hws

theorem append_strip (hws : ∀ c ∈ ws, p c = true) : strip p (ws ++ r) = strip p r := by
  rw [strip, List.dropWhile_append_of_pos hws]
  rfl

theorem strip_rdropWhile : strip p (r.rdropWhile p) = strip p r := by
  have hrest : ∀ c ∈ r.rtakeWhile p, p c = true := fun c hc => List.mem_rtakeWhile_imp hc
  have hsplit : r.rdropWhile p ++ r.rtakeWhile p = r := List.rdropWhile_append_rtakeWhile
  exact (strip_append hrest).symm.trans (congrArg (strip p) hsplit)

theorem strip_eq_self (hhead : ∀ c ∈ r.head?, p c = false) (hlast : ∀ c ∈ r.getLast?, p c = false) :
    strip p r = r := by
  have hfront : r.dropWhile p = r := by
    cases r with
    | nil => rfl
    | cons c s => exact List.dropWhile_cons_of_neg (ne_true_of_eq_false (hhead c rfl))
  rw [strip, hfront, List.rdropWhile_eq_self_iff]
  intro hne
  exact ne_true_of_eq_false (hlast _ (List.getLast?_eq_getLast_of_ne_nil hne))

theorem strip_takeWhile_rdropWhile (hq : ∀ c, q c = false → p c = false) :
    strip p ((r.rdropWhile p).takeWhile q) = strip p (r.takeWhile q) := by
  by_cases hall : ∀ c ∈ r, q c = true
  · have hsplit : r.rdropWhile p ++ r.rtakeWhile p = r := List.rdropWhile_append_rtakeWhile
    have hsub : ∀ c ∈ r.rdropWhile p, q c = true := fun c hc =>
      hall c (hsplit ▸ List.mem_append_left _ hc)
    rw [List.takeWhile_eq_self_iff.mpr hsub, List.takeWhile_eq_self_iff.mpr hall,
      strip_rdropWhile]
  · have hsplit := List.takeWhile_append_dropWhile (p := q) (l := r)
    rcases hdrop : r.dropWhile q with _ | ⟨c, s⟩
    · exact absurd (List.dropWhile_eq_nil_iff.mp hdrop) hall
    · have hc : q c = false := eq_false_of_dropWhile hdrop
      rw [hdrop] at hsplit
      have hfront : ∀ d ∈ r.takeWhile q, q d = true := fun d hd => List.mem_takeWhile_imp hd
      have hstop : (c :: s.rdropWhile p).takeWhile q = [] :=
        List.takeWhile_cons_of_neg (ne_true_of_eq_false hc)
      conv_lhs => rw [← hsplit, rdropWhile_append_cons (hq c hc),
        List.takeWhile_append_of_pos hfront, hstop, List.append_nil]

/-! ## The core of a list, and its longest part -/

/-- What is left between two ends that are dropped, itself with no end to drop. -/
def IsCore (p : α → Bool) (s t : List α) : Prop :=
  ∃ a b, s = a ++ t ++ b ∧ (∀ c ∈ a, p c = true) ∧ (∀ c ∈ b, p c = true) ∧
    (t = [] ∨ (∃ c ∈ t.head?, p c = false) ∧ ∃ c ∈ t.getLast?, p c = false)

theorem strip_of_isCore (h : IsCore p s r) : r = strip p s := by
  obtain ⟨a, b, rfl, ha, hb, hends⟩ := h
  rw [strip_append hb, append_strip ha]
  rcases hends with rfl | ⟨⟨first, hfirst, hhead⟩, last, hlast, hend⟩
  · rfl
  · refine (strip_eq_self ?_ ?_).symm
    · intro c hc
      rw [Option.mem_unique hc hfirst, hhead]
    · intro c hc
      rw [Option.mem_unique hc hlast, hend]

theorem isCore_strip (p : α → Bool) (s : List α) : IsCore p s (strip p s) := by
  refine ⟨s.takeWhile p, (s.dropWhile p).rtakeWhile p, ?_, fun c hc => List.mem_takeWhile_imp hc,
    fun c hc => List.mem_rtakeWhile_imp hc, ?_⟩
  · rw [strip, List.append_assoc, List.rdropWhile_append_rtakeWhile, List.takeWhile_append_dropWhile]
  · by_cases hne : strip p s = []
    · exact Or.inl hne
    · refine Or.inr ⟨?_, (strip p s).getLast hne, List.getLast?_eq_getLast_of_ne_nil hne,
        eq_false_of_ne_true (List.rdropWhile_last_not _ _ hne)⟩
      obtain ⟨c, t, hcons⟩ := List.exists_cons_of_ne_nil hne
      obtain ⟨rest, hrest⟩ : strip p s <+: s.dropWhile p := List.rdropWhile_prefix p _
      rw [hcons] at hrest
      exact ⟨c, congrArg List.head? hcons, eq_false_of_dropWhile hrest.symm⟩

theorem isCore_iff : IsCore p s r ↔ r = strip p s :=
  ⟨strip_of_isCore, fun h => h ▸ isCore_strip p s⟩

theorem strip_strip (p : α → Bool) (s : List α) : strip p (strip p s) = strip p s := by
  obtain ⟨-, -, -, -, -, hends⟩ := isCore_strip p s
  exact (strip_of_isCore ⟨[], [], (List.append_nil _).symm, nofun, nofun, hends⟩).symm

theorem dropWhile_eq_nil_of_strip (h : strip p s = []) : s.dropWhile p = [] := by
  cases hdrop : s.dropWhile p with
  | nil => rfl
  | cons c t =>
    have hc : p c = false := eq_false_of_dropWhile hdrop
    rw [strip, hdrop] at h
    exact absurd (List.rdropWhile_eq_nil_iff.mp h c List.mem_cons_self) (ne_true_of_eq_false hc)

theorem exists_last_of_strip (hne : s.dropWhile p ≠ []) :
    ∃ front c ws, s.dropWhile p = front ++ c :: ws ∧ strip p s = front ++ [c] ∧ p c = false ∧
      ∀ d ∈ ws, p d = true := by
  have hcore : strip p s ≠ [] := fun h => hne (dropWhile_eq_nil_of_strip h)
  refine ⟨(strip p s).dropLast, (strip p s).getLast hcore, (s.dropWhile p).rtakeWhile p, ?_,
    (List.dropLast_append_getLast hcore).symm,
    eq_false_of_ne_true (List.rdropWhile_last_not _ _ hcore),
    fun d hd => List.mem_rtakeWhile_imp hd⟩
  rw [List.append_cons, List.dropLast_append_getLast hcore, strip,
    List.rdropWhile_append_rtakeWhile]

theorem prefix_rdropWhile (hpre : r <+: s) (hlast : ∀ c ∈ r.getLast?, p c = false) :
    r <+: s.rdropWhile p := by
  obtain ⟨rest, rfl⟩ := hpre
  by_cases hall : ∀ c ∈ rest, p c = true
  · have hself : r.rdropWhile p = r := by
      rw [List.rdropWhile_eq_self_iff]
      intro hne
      exact ne_true_of_eq_false (hlast _ (List.getLast?_eq_getLast_of_ne_nil hne))
    rw [rdropWhile_append_of_pos hall, hself]
  · obtain ⟨c, hmem, hc⟩ := not_forall₂.mp hall
    obtain ⟨before, after, rfl⟩ := List.append_of_mem hmem
    rw [← List.append_assoc, rdropWhile_append_cons (eq_false_of_ne_true hc),
      List.append_assoc]
    exact List.prefix_append _ _

end Warhead.Lib
