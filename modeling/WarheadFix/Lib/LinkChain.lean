import Mathlib

/-! Chains of nodes that are appended in two steps: the new node becomes the last one, and
only later the link of the one before it is stored. In between, any number of links of the
chain may be missing, and for each of them one store is pending. -/

namespace Warhead.Lib
universe u
variable {ν : Type u}

def Adjacent (chain : List ν) (a b : ν) : Prop := [a, b] <:+: chain

namespace Adjacent
variable {chain : List ν} {a b c x : ν}

theorem cons_iff : Adjacent (x :: chain) a b ↔ (a = x ∧ chain.head? = some b) ∨
    Adjacent chain a b := by
  have hfront : [a, b] <+: x :: chain ↔ a = x ∧ chain.head? = some b := by
    rw [List.cons_prefix_cons]
    cases chain with
    | nil => simp
    | cons y l => simp [eq_comm]
  rw [Adjacent, List.infix_cons_iff, hfront, Adjacent]

theorem not_nil : ¬ Adjacent [] a b := by
  simp [Adjacent]

theorem not_singleton : ¬ Adjacent [x] a b := by
  rw [cons_iff]
  rintro (⟨-, hb⟩ | h)
  · exact absurd hb.symm (Option.some_ne_none b)
  · exact not_nil h

theorem concat_iff : Adjacent (chain ++ [x]) a b ↔ Adjacent chain a b ∨
    (chain.getLast? = some a ∧ b = x) := by
  induction chain with
  | nil => exact iff_of_false not_singleton (by simp [not_nil])
  | cons y l ih =>
    rw [List.cons_append, cons_iff, ih, cons_iff]
    cases l with
    | nil =>
      have hlast : ([y] : List ν).getLast? = some a ↔ a = y := by
        simp only [List.getLast?_singleton, Option.some.injEq, eq_comm]
      have hhead : ([] ++ [x] : List ν).head? = some b ↔ b = x := by
        simp only [List.nil_append, List.head?_cons, Option.some.injEq, eq_comm]
      rw [hlast, hhead]
      simp only [not_nil, List.head?_nil, List.getLast?_nil, reduceCtorEq, and_false, false_and,
        or_false, false_or]
    | cons z l =>
      simp only [List.cons_append, List.head?_cons, List.getLast?_cons_cons]
      exact or_assoc.symm

theorem mem_left (h : Adjacent chain a b) : a ∈ chain := h.subset (List.mem_cons_self ..)

theorem mem_tail (h : Adjacent chain a b) : b ∈ chain.tail := by
  cases chain with
  | nil => exact absurd h not_nil
  | cons x l =>
    rcases cons_iff.mp h with ⟨-, hb⟩ | hl
    · exact List.mem_of_mem_head? hb
    · exact hl.subset (List.mem_cons_of_mem _ (List.mem_singleton_self b))

theorem unique (hnodup : chain.Nodup) (h : Adjacent chain a b) (h' : Adjacent chain a c) :
    b = c := by
  induction chain with
  | nil => exact absurd h not_nil
  | cons x l ih =>
    obtain ⟨hx, hl⟩ := List.nodup_cons.mp hnodup
    rcases cons_iff.mp h with ⟨rfl, hb⟩ | hab
    · rcases cons_iff.mp h' with ⟨-, hc⟩ | hac
      · exact Option.some.inj (hb.symm.trans hc)
      · exact absurd hac.mem_left hx
    · rcases cons_iff.mp h' with ⟨rfl, -⟩ | hac
      · exact absurd hab.mem_left hx
      · exact ih hl hab hac

theorem not_last (hnodup : chain.Nodup) (hlast : chain.getLast? = some a) :
    ¬ Adjacent chain a b := by
  induction chain with
  | nil => exact not_nil
  | cons x l ih =>
    obtain ⟨hx, hl⟩ := List.nodup_cons.mp hnodup
    intro h
    cases l with
    | nil => exact not_singleton h
    | cons y l =>
      rw [List.getLast?_cons_cons] at hlast
      rcases cons_iff.mp h with ⟨rfl, -⟩ | hab
      · exact hx (List.mem_of_getLast? hlast)
      · exact ih hl hlast hab

end Adjacent

/-- A chain from its first node to its last. Where a link is missing, its store is pending, and
no other store is. -/
structure Chained (next : ν → Option ν) (Pending : ν → ν → Prop) (last : ν) (chain : List ν) :
    Prop where
  nodup : chain.Nodup
  last_eq : chain.getLast? = some last
  next_last : next last = none
  links : ∀ a b, Adjacent chain a b → next a = some b ∨ next a = none ∧ Pending a b
  pending : ∀ a b, Pending a b → Adjacent chain a b ∧ next a = none

namespace Chained
variable {next next' : ν → Option ν} {Pending Pending' : ν → ν → Prop} {last a b n : ν}
  {chain : List ν}

theorem last_mem (h : Chained next Pending last chain) : last ∈ chain :=
  List.mem_of_getLast? h.last_eq

theorem congr (h : Chained next Pending last chain) (hnext : ∀ a ∈ chain, next' a = next a)
    (hpending : ∀ a b, Pending' a b ↔ Pending a b) : Chained next' Pending' last chain where
  nodup := h.nodup
  last_eq := h.last_eq
  next_last := (hnext last h.last_mem).trans h.next_last
  links a b hab := by
    rw [hnext a hab.mem_left, hpending]
    exact h.links a b hab
  pending a b hab := by
    obtain ⟨hadj, hnone⟩ := h.pending a b ((hpending a b).mp hab)
    exact ⟨hadj, (hnext a hadj.mem_left).trans hnone⟩

theorem exchange (h : Chained next Pending last chain) (hn : n ∉ chain) (hnone : next n = none)
    (hpending : ∀ a b, Pending' a b ↔ Pending a b ∨ (a = last ∧ b = n)) :
    Chained next Pending' n (chain ++ [n]) where
  nodup := by
    rw [← List.concat_eq_append]
    exact h.nodup.concat hn
  last_eq := List.getLast?_concat
  next_last := hnone
  links a b hab := by
    rw [hpending]
    rcases Adjacent.concat_iff.mp hab with hab | ⟨ha, rfl⟩
    · exact (h.links a b hab).imp_right fun ⟨hnone, hp⟩ => ⟨hnone, .inl hp⟩
    · obtain rfl := Option.some.inj (h.last_eq.symm.trans ha)
      exact .inr ⟨h.next_last, .inr ⟨rfl, rfl⟩⟩
  pending a b hab := by
    rcases (hpending a b).mp hab with hp | ⟨rfl, rfl⟩
    · obtain ⟨hadj, hnone⟩ := h.pending a b hp
      exact ⟨Adjacent.concat_iff.mpr (.inl hadj), hnone⟩
    · exact ⟨Adjacent.concat_iff.mpr (.inr ⟨h.last_eq, rfl⟩), h.next_last⟩

theorem link [DecidableEq ν] (h : Chained next Pending last chain) (hp : Pending a b)
    (hpending : ∀ x y, Pending' x y ↔ Pending x y ∧ x ≠ a) :
    Chained (Function.update next a (some b)) Pending' last chain := by
  obtain ⟨hadj, hnone⟩ := h.pending a b hp
  have hlast : last ≠ a := by
    rintro rfl
    exact Adjacent.not_last h.nodup h.last_eq hadj
  exact {
    nodup := h.nodup
    last_eq := h.last_eq
    next_last := by rw [Function.update_of_ne hlast, h.next_last]
    links := by
      intro x y hxy
      by_cases hx : x = a
      · subst hx
        rw [Function.update_self, hadj.unique h.nodup hxy]
        exact .inl rfl
      · rw [Function.update_of_ne hx, hpending]
        exact (h.links x y hxy).imp_right fun ⟨hnone, hp⟩ => ⟨hnone, hp, hx⟩
    pending := by
      intro x y hxy
      obtain ⟨hp, hx⟩ := (hpending x y).mp hxy
      rw [Function.update_of_ne hx]
      exact h.pending x y hp }

theorem advance (h : Chained next Pending last (a :: chain)) (hnext : next a = some b) :
    ∃ rest, chain = b :: rest ∧ Chained next Pending last chain := by
  obtain ⟨ha, hnodup⟩ := List.nodup_cons.mp h.nodup
  cases chain with
  | nil =>
    obtain rfl : a = last := Option.some.inj h.last_eq
    exact absurd (h.next_last.symm.trans hnext) (Option.some_ne_none b).symm
  | cons c rest =>
    have hadj : Adjacent (a :: c :: rest) a c := Adjacent.cons_iff.mpr (.inl ⟨rfl, rfl⟩)
    have hbc : b = c := by
      rcases h.links a c hadj with hc | ⟨hnone, -⟩
      · exact Option.some.inj (hnext.symm.trans hc)
      · exact absurd (hnone.symm.trans hnext) (Option.some_ne_none b).symm
    refine ⟨rest, by rw [hbc], hnodup, ?_, h.next_last, ?_, ?_⟩
    · rw [← h.last_eq, List.getLast?_cons_cons]
    · exact fun x y hxy => h.links x y (Adjacent.cons_iff.mpr (.inr hxy))
    · intro x y hxy
      obtain ⟨hxy, hnone⟩ := h.pending x y hxy
      refine ⟨(Adjacent.cons_iff.mp hxy).resolve_left ?_, hnone⟩
      rintro ⟨rfl, -⟩
      exact absurd (hnone.symm.trans hnext) (Option.some_ne_none b).symm

theorem not_pending (h : Chained next Pending last chain) (hnext : next a = some b) (c : ν) :
    ¬ Pending a c := by
  intro hp
  exact absurd ((h.pending a c hp).2.symm.trans hnext) (Option.some_ne_none b).symm

theorem alone (h : Chained next Pending a (a :: chain)) : chain = [] := by
  obtain ⟨ha, -⟩ := List.nodup_cons.mp h.nodup
  cases chain with
  | nil => rfl
  | cons c rest =>
    have hlast := h.last_eq
    rw [List.getLast?_cons_cons] at hlast
    exact absurd (List.mem_of_getLast? hlast) ha

end Chained

/-! ## Threads -/

section Threads
variable {τ P κ : Type*} [DecidableEq τ] {f : τ → P} {p : P} {thread : τ}

theorem exists_thread_update (Q : P → Prop) : (∃ t, Q (Function.update f thread p t)) ↔
    Q p ∨ ∃ t, t ≠ thread ∧ Q (f t) :=
  Function.exists_update_iff f fun _ q => Q q

theorem exists_thread (Q : P → Prop) (thread : τ) :
    (∃ t, Q (f t)) ↔ Q (f thread) ∨ ∃ t, t ≠ thread ∧ Q (f t) := by
  have hsame : (∃ t, Q (Function.update f thread (f thread) t)) ↔
      Q (f thread) ∨ ∃ t, t ≠ thread ∧ Q (f t) := exists_thread_update Q
  rwa [Function.update_eq_self] at hsame

theorem forall_thread_update (Q : P → Prop) : (∀ t, Q (Function.update f thread p t)) ↔
    Q p ∧ ∀ t, t ≠ thread → Q (f t) :=
  Function.forall_update_iff f fun _ q => Q q

omit [DecidableEq τ] in
def Exclusive (key : P → Option κ) (f : τ → P) : Prop :=
  ∀ t t' k, key (f t) = some k → key (f t') = some k → t = t'

omit [DecidableEq τ] in
theorem Exclusive.other {key : P → Option κ} (h : Exclusive key f) {k : κ}
    (hk : key (f thread) = some k) : ∀ t, t ≠ thread → key (f t) ≠ some k := by
  intro t ht htk
  exact ht (h t thread k htk hk)

theorem Exclusive.update {key : P → Option κ} (h : Exclusive key f)
    (hp : ∀ k, key p = some k → ∀ t, t ≠ thread → key (f t) ≠ some k) :
    Exclusive key (Function.update f thread p) := by
  intro t t' k ht ht'
  by_cases hu : t = thread
  · by_cases hu' : t' = thread
    · rw [hu, hu']
    · rw [hu, Function.update_self] at ht
      rw [Function.update_of_ne hu'] at ht'
      exact absurd ht' (hp k ht t' hu')
  · rw [Function.update_of_ne hu] at ht
    by_cases hu' : t' = thread
    · rw [hu', Function.update_self] at ht'
      exact absurd ht (hp k ht' t hu)
    · rw [Function.update_of_ne hu'] at ht'
      exact h t t' k ht ht'

end Threads
end Warhead.Lib
