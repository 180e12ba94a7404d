import Mathlib

/-! Numbers by place values: how often each unit goes into what the larger ones have left, and
what the first few counts that are not zero say of the number. -/

namespace Warhead.Lib.Places
variable {ι : Type} {size : ι → Nat} {u : ι} {us : List ι} {k n : Nat}

def counts (size : ι → Nat) : List ι → Nat → List (Nat × ι)
  | [], _ => []
  | u :: us, n => (n / size u, u) :: counts size us (n % size u)

def rest (size : ι → Nat) : List ι → Nat → Nat
  | [], n => n
  | u :: us, n => rest size us (n % size u)

def value (size : ι → Nat) (cs : List (Nat × ι)) : Nat := (cs.map fun c => c.1 * size c.2).sum

def nonZero (cs : List (Nat × ι)) : List (Nat × ι) := cs.filter fun c => c.1 ≠ 0

theorem value_cons (c : Nat × ι) (cs : List (Nat × ι)) :
    value size (c :: cs) = c.1 * size c.2 + value size cs := List.sum_cons

theorem nonZero_cons (c : Nat × ι) (cs : List (Nat × ι)) :
    nonZero (c :: cs) = if c.1 = 0 then nonZero cs else c :: nonZero cs := by
  rw [nonZero, List.filter_cons]
  split_ifs <;> simp_all [nonZero]

theorem value_nonZero (cs : List (Nat × ι)) : value size (nonZero cs) = value size cs := by
  induction cs with
  | nil => rfl
  | cons c cs ih =>
    rw [nonZero_cons, value_cons]
    split_ifs with hzero
    · rw [ih, hzero, Nat.zero_mul, Nat.zero_add]
    · rw [value_cons, ih]

theorem nonZero_dropWhile (cs : List (Nat × ι)) :
    nonZero (cs.dropWhile fun c => c.1 = 0) = nonZero cs := by
  induction cs with
  | nil => rfl
  | cons c cs ih =>
    rw [List.dropWhile_cons, nonZero_cons]
    by_cases hzero : c.1 = 0
    · rw [if_pos (decide_eq_true hzero), if_pos hzero, ih]
    · rw [if_neg (by simpa using hzero), if_neg hzero, nonZero_cons, if_neg hzero]

theorem value_counts (us : List ι) (n : Nat) :
    value size (counts size us n) + rest size us n = n := by
  induction us generalizing n with
  | nil => exact Nat.zero_add n
  | cons u us ih =>
    rw [counts, rest, value_cons, Nat.add_assoc, ih]
    exact Nat.div_add_mod' n (size u)

theorem map_snd_counts (us : List ι) (n : Nat) : (counts size us n).map Prod.snd = us := by
  induction us generalizing n with
  | nil => rfl
  | cons u us ih => rw [counts, List.map_cons, ih]

theorem value_take_of_le (h : (nonZero (counts size us n)).length ≤ k) :
    value size ((nonZero (counts size us n)).take k) + rest size us n = n := by
  rw [List.take_of_length_le h, value_nonZero, value_counts]

theorem lt_of_take (hpos : ∀ u ∈ us, 0 < size u)
    (hk : k < (nonZero (counts size us n)).length) (hone : 0 < k) :
    ∃ c, ((nonZero (counts size us n)).take k).getLast? = some c ∧
      value size ((nonZero (counts size us n)).take k) ≤ n ∧
      n < value size ((nonZero (counts size us n)).take k) + size c.2 := by
  induction us generalizing k n with
  | nil => exact absurd hk (Nat.not_lt_zero k)
  | cons u us ih =>
    obtain ⟨hu, hpos⟩ := List.forall_mem_cons.mp hpos
    have hsplit := Nat.div_add_mod' n (size u)
    have hlt := Nat.mod_lt n hu
    rw [counts, nonZero_cons] at hk ⊢
    split_ifs at hk ⊢ with hzero
    · have hquot : n / size u = 0 := hzero
      rw [hquot, Nat.zero_mul, Nat.zero_add] at hsplit
      have hrest := ih hpos hk hone
      rwa [hsplit] at hrest ⊢
    · obtain ⟨k, rfl⟩ := Nat.exists_eq_succ_of_ne_zero hone.ne'
      rw [List.take_succ_cons]
      rcases Nat.eq_zero_or_pos k with rfl | hk'
      · refine ⟨(n / size u, u), by rw [List.take_zero]; rfl, ?_, ?_⟩
        · rw [List.take_zero, value_cons]
          change n / size u * size u + 0 ≤ n
          omega
        · rw [List.take_zero, value_cons]
          change n < n / size u * size u + 0 + size u
          omega
      · rw [List.length_cons] at hk
        obtain ⟨c, hlast, hle, hnext⟩ := ih (n := n % size u) hpos (Nat.lt_of_succ_lt_succ hk) hk'
        refine ⟨c, ?_, ?_, ?_⟩
        · rw [List.getLast?_cons, hlast]
          rfl
        · rw [value_cons]
          dsimp only
          omega
        · rw [value_cons]
          dsimp only
          omega

theorem foldl_take_filter {σ α : Type} {p : α → Prop} [DecidablePred p] {count : σ → Nat}
    {add : σ → α → σ} (hadd : ∀ s a, count (add s a) = count s + 1) (k : Nat) (xs : List α) (s : σ) :
    xs.foldl (fun s a => if p a then if k ≤ count s then s else add s a else s) s =
      ((xs.filter p).take (k - count s)).foldl add s := by
  induction xs generalizing s with
  | nil => simp
  | cons a xs ih =>
    rw [List.foldl_cons]
    by_cases ha : p a
    · have hfilter : (a :: xs).filter (fun b => decide (p b)) =
          a :: xs.filter fun b => decide (p b) := List.filter_cons_of_pos (decide_eq_true ha)
      rw [if_pos ha, hfilter]
      split_ifs with hk
      · rw [ih, Nat.sub_eq_zero_of_le hk, List.take_zero, List.take_zero]
      · have hleft : k - count s = k - (count s + 1) + 1 := by omega
        rw [ih, hadd, hleft, List.take_succ_cons, List.foldl_cons]
    · have hfilter : (a :: xs).filter (fun b => decide (p b)) = xs.filter fun b => decide (p b) :=
        List.filter_cons_of_neg (by simpa using ha)
      rw [if_neg ha, ih, hfilter]

theorem take_filter_prefix_iff {α : Type} (p : α → Bool) (k : Nat) (xs : List α) :
    (xs.filter p).take k <+: xs ↔
      k ≤ (xs.takeWhile p).length ∨ ∀ x ∈ xs.dropWhile p, p x = false := by
  induction xs generalizing k with
  | nil => simp
  | cons x xs ih =>
    cases hx : p x with
    | true =>
      rw [List.filter_cons_of_pos hx, List.takeWhile_cons_of_pos hx, List.dropWhile_cons_of_pos hx]
      cases k with
      | zero => simp
      | succ k => rw [List.take_succ_cons, List.cons_prefix_cons, ih, List.length_cons]; simp
    | false =>
      have hnot : ¬p x = true := Bool.eq_false_iff.mp hx
      rw [List.filter_cons_of_neg hnot, List.takeWhile_cons_of_neg hnot,
        List.dropWhile_cons_of_neg hnot]
      constructor
      · intro h
        cases htake : (xs.filter p).take k with
        | nil =>
          rcases List.take_eq_nil_iff.mp htake with rfl | hnil
          · exact .inl (Nat.zero_le _)
          · refine .inr (List.forall_mem_cons.mpr ⟨hx, fun y hy => ?_⟩)
            exact Bool.eq_false_iff.mpr (List.filter_eq_nil_iff.mp hnil y hy)
        | cons y ys =>
          rw [htake] at h
          obtain ⟨rfl, -⟩ := List.cons_prefix_cons.mp h
          have hmem : y ∈ (xs.filter p).take k := htake ▸ List.mem_cons_self
          exact absurd (List.mem_filter.mp (List.mem_of_mem_take hmem)).2 hnot
      · rintro (hzero | hall)
        · rw [Nat.le_zero.mp hzero, List.take_zero]
          exact List.nil_prefix
        · have hnil : xs.filter p = [] := List.filter_eq_nil_iff.mpr fun y hy =>
            Bool.eq_false_iff.mp (hall y (List.mem_cons_of_mem _ hy))
          rw [hnil, List.take_nil]
          exact List.nil_prefix

theorem map_take_filter_prefix_iff {α β : Type} (f : α → β) (p : β → Bool) (k : Nat) (xs : List α) :
    ((xs.filter (p ∘ f)).take k).map f <+: xs.map f ↔
      k ≤ (xs.takeWhile (p ∘ f)).length ∨ ∀ x ∈ xs.dropWhile (p ∘ f), p (f x) = false := by
  rw [List.map_take, ← List.filter_map, take_filter_prefix_iff, List.takeWhile_map, List.length_map,
    List.dropWhile_map, List.forall_mem_map]

theorem suffix_eq_of_head {α : Type} {l xs ys : List α} (hl : l.Nodup) (hx : xs <:+ l)
    (hy : ys <:+ l) (h : xs.head? = ys.head?) : xs = ys := by
  wlog hle : xs <:+ ys generalizing xs ys
  · exact (this hy hx h.symm ((List.suffix_or_suffix_of_suffix hx hy).resolve_left hle)).symm
  · obtain ⟨zs, rfl⟩ := hle
    cases zs with
    | nil => rfl
    | cons z zs =>
      have hhead : xs.head? = some z := h
      have hdisjoint := (List.nodup_append.mp (hl.sublist hy.sublist)).2.2
      exact absurd rfl (hdisjoint z List.mem_cons_self z (List.mem_of_mem_head? hhead))

end Warhead.Lib.Places
