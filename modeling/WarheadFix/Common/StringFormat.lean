import WarheadFix.Lib.Memory
import WarheadFix.Lib.Strip

/-! Cutting white space off the ends of a text: once with two iterators, of which the second has
nothing that keeps it in the text, and once with a signed index. What counts as white space is up to
the locale. -/

namespace Warhead.StringFormat
open Lib
universe u
variable {ε : Type u} {isspace : UInt8 → Bool} {s : Bytes} {c : UInt8}

/-! ## Trim -/

def forward (isspace : UInt8 → Bool) (s : Bytes) (first : Nat) : Nat :=
  if h : first < s.length then
    if isspace s[first] then forward isspace s (first + 1) else first
  else first
termination_by s.length - first

/-- The last iterator, from a place on: where it stops, and the places it has been at. Moving it
before the start of the text is undefined. -/
def backward (isspace : UInt8 → Bool) (s : Bytes) : Nat → Outcome ε (Nat × List Nat)
  | 0 => .error .undefined
  | last + 1 => do
    if isspace (← byteAt s (last : Nat)) then
      let (stop, places) ← backward isspace s last
      return (stop, last :: places)
    else return (last, [last])

def trim (isspace : UInt8 → Bool) (s : Bytes) : Outcome ε Bytes := do
  let first := forward isspace s 0
  if first = s.length then return []
  let (last, _) ← backward isspace s s.length
  if first ≠ 0 ∨ last + 1 ≠ s.length then span s first (last + 1 : Nat)
  else return s

theorem forward_from (first : Nat) (h : first ≤ s.length) :
    forward isspace s first ≤ s.length ∧
      s.drop (forward isspace s first) = (s.drop first).dropWhile isspace := by
  fun_induction forward isspace s first with
  | case1 first hlt hspace ih =>
    rw [List.drop_eq_getElem_cons hlt, List.dropWhile_cons_of_pos hspace]
    exact ih hlt
  | case2 first hlt hspace =>
    rw [List.drop_eq_getElem_cons hlt, List.dropWhile_cons_of_neg hspace]
    exact ⟨hlt.le, rfl⟩
  | case3 first hend =>
    rw [List.drop_eq_nil_of_le (Nat.not_lt.mp hend)]
    exact ⟨h, rfl⟩

theorem drop_forward (isspace : UInt8 → Bool) (s : Bytes) :
    forward isspace s 0 ≤ s.length ∧ s.drop (forward isspace s 0) = s.dropWhile isspace :=
  forward_from 0 (Nat.zero_le s.length)

theorem forward_eq (isspace : UInt8 → Bool) (s : Bytes) :
    forward isspace s 0 = (s.takeWhile isspace).length := by
  obtain ⟨hle, hdrop⟩ := drop_forward isspace s
  have hafter := congrArg List.length hdrop
  have hall : (s.takeWhile isspace ++ s.dropWhile isspace).length = s.length :=
    congrArg List.length List.takeWhile_append_dropWhile
  rw [List.length_drop] at hafter
  rw [List.length_append] at hall
  omega

theorem backward_eq (pre : Bytes) {white : Bytes} (hc : isspace c = false)
    (hwhite : ∀ d ∈ white, isspace d = true) (rest : Bytes) :
    ∃ places, (backward isspace (pre ++ c :: white ++ rest) (pre.length + 1 + white.length) :
        Outcome ε _) = .ok (pre.length, places) ∧ ∀ place ∈ places, pre.length ≤ place := by
  induction white using List.reverseRecOn generalizing rest with
  | nil =>
    have hbyte : (pre ++ [c] ++ rest)[pre.length]? = some c := by simp
    refine ⟨[pre.length], ?_, fun place hplace => (List.mem_singleton.mp hplace).ge⟩
    rw [List.length_nil, Nat.add_zero, backward, byteAt_of_getElem? hbyte, bind_of_ok rfl, hc]
    rfl
  | append_singleton white d ih =>
    obtain ⟨hinit, hd⟩ := List.forall_mem_append.mp hwhite
    obtain ⟨places, hrun, hplaces⟩ := ih hinit (d :: rest)
    have htext : pre ++ c :: (white ++ [d]) ++ rest = pre ++ c :: white ++ d :: rest := by simp
    have hbyte : (pre ++ c :: white ++ d :: rest)[pre.length + 1 + white.length]? = some d := by
      rw [List.getElem?_append_right (by simp; omega)]
      simp [Nat.add_assoc, Nat.add_comm 1]
    refine ⟨(pre.length + 1 + white.length) :: places, ?_, ?_⟩
    · rw [htext, List.length_append, List.length_singleton, ← Nat.add_assoc, backward,
        byteAt_of_getElem? hbyte, bind_of_ok rfl, if_pos (hd d List.mem_cons_self), hrun]
      rfl
    · intro place hplace
      rcases List.mem_cons.mp hplace with rfl | hplace
      · omega
      · exact hplaces place hplace

theorem backward_from_end (h : forward isspace s 0 ≠ s.length) :
    ∃ last places, (backward isspace s s.length : Outcome ε _) = .ok (last, places) ∧
      last + 1 = forward isspace s 0 + (strip isspace s).length ∧
      ∀ place ∈ places, forward isspace s 0 ≤ place := by
  obtain ⟨hle, hdrop⟩ := drop_forward isspace s
  have hne : s.dropWhile isspace ≠ [] := by
    rw [← hdrop, Ne, List.drop_eq_nil_iff]
    omega
  obtain ⟨front, c, white, hrest, hcore, hc, hwhite⟩ := exists_last_of_strip hne
  have htext : s = s.take (forward isspace s 0) ++ front ++ c :: white := by
    rw [List.append_assoc, ← hrest, ← hdrop, List.take_append_drop]
  have hpre : (s.take (forward isspace s 0) ++ front).length =
      forward isspace s 0 + front.length := by
    rw [List.length_append, List.length_take_of_le hle]
  have hlength := congrArg List.length htext
  rw [List.length_append, List.length_cons, hpre] at hlength
  obtain ⟨places, hrun, hplaces⟩ := backward_eq (s.take (forward isspace s 0) ++ front) hc hwhite []
  rw [List.append_nil, ← htext, hpre] at hrun
  refine ⟨forward isspace s 0 + front.length, places, ?_, ?_, ?_⟩
  · rw [← hrun]
    congr 1
    omega
  · rw [hcore, List.length_append, List.length_singleton, Nat.add_assoc]
  · intro place hplace
    have hat := hplaces place hplace
    omega

theorem trim_eq (isspace : UInt8 → Bool) (s : Bytes) :
    (trim isspace s : Outcome ε Bytes) = .ok (strip isspace s) := by
  obtain ⟨hle, hdrop⟩ := drop_forward isspace s
  rw [trim]
  by_cases hfirst : forward isspace s 0 = s.length
  · have hnil : s.dropWhile isspace = [] := by rw [← hdrop, hfirst, List.drop_length]
    rw [if_pos hfirst, strip, hnil]
    rfl
  · obtain ⟨last, places, hrun, hlast, -⟩ := backward_from_end hfirst
    have hcore : s.drop (forward isspace s 0) =
        strip isspace s ++ (s.dropWhile isspace).rtakeWhile isspace := by
      rw [hdrop]
      exact List.rdropWhile_append_rtakeWhile.symm
    rw [if_neg hfirst, bind_of_ok hrun]
    show (if forward isspace s 0 ≠ 0 ∨ last + 1 ≠ s.length then
      span s (forward isspace s 0) (last + 1 : Nat) else .ok s : Outcome ε Bytes) = _
    split_ifs with hcut
    · exact span_of_drop _ hcore hlast.symm
    · obtain ⟨hzero, hend⟩ := not_or.mp hcut
      rw [not_not] at hzero hend
      rw [hzero, List.drop_zero] at hcore
      have hlength : (strip isspace s).length = s.length := by omega
      have hself : strip isspace s = s := (List.IsPrefix.eq_of_length ⟨_, hcore.symm⟩ hlength)
      rw [hself]

/-! ## TrimRightInPlace -/

structure LengthError where
  deriving DecidableEq

def maxSize : Nat := 2 ^ 63 - 1

def resize (str : Bytes) (n : Nat) : Outcome LengthError Bytes :=
  if maxSize < n then .error (.thrown {}) else .ok (resized str n)

def indexFrom (isspace : UInt8 → Bool) (str : Bytes) (pos : Int) : Int :=
  if 0 ≤ pos ∧ str[pos.toNat]?.any isspace then indexFrom isspace str (pos - 1) else pos
termination_by (pos + 1).toNat

def trimRightInPlace (isspace : UInt8 → Bool) (str : Bytes) : Outcome LengthError Bytes :=
  -- both conversions cut, that of the size to an `int` and that of the index to a size
  let pos := indexFrom isspace str (Int.bmod str.length (2 ^ 32) - 1)
  resize str (((pos % 2 ^ 64).toNat + 1) % 2 ^ 64)

theorem indexFrom_eq (isspace : UInt8 → Bool) {n : Nat} (h : n ≤ s.length) :
    ∃ kept ≤ n, indexFrom isspace s ((n : Int) - 1) = (kept : Int) - 1 ∧
      s.take kept = (s.take n).rdropWhile isspace := by
  induction n with
  | zero =>
    refine ⟨0, le_rfl, ?_, rfl⟩
    rw [indexFrom, if_neg (by omega)]
  | succ n ih =>
    have hplace : ((n + 1 : Nat) : Int) - 1 = n := by omega
    rw [List.take_succ_eq_append_getElem h, List.rdropWhile_concat, hplace, indexFrom,
      Int.toNat_natCast, List.getElem?_eq_getElem h, Option.any_some]
    by_cases hspace : isspace s[n] = true
    · obtain ⟨kept, hkept, hindex, htake⟩ := ih (Nat.le_of_succ_le h)
      rw [if_pos ⟨Int.natCast_nonneg n, hspace⟩, if_pos hspace]
      exact ⟨kept, Nat.le_succ_of_le hkept, hindex, htake⟩
    · rw [if_neg (not_and_of_not_right _ hspace), if_neg hspace]
      exact ⟨n + 1, le_rfl, hplace.symm, List.take_succ_eq_append_getElem h⟩

theorem trimRightInPlace_eq (h : s.length < 2 ^ 31) :
    trimRightInPlace isspace s = .ok (s.rdropWhile isspace) := by
  obtain ⟨kept, hkept, hindex, htake⟩ := indexFrom_eq isspace (le_refl s.length)
  have hint : Int.bmod s.length (2 ^ 32) = s.length := Int.bmod_eq_of_le (by omega) (by omega)
  have hsize : ((((kept : Int) - 1) % 2 ^ 64).toNat + 1) % 2 ^ 64 = kept := by omega
  have hfits : ¬ maxSize < kept := by
    rw [maxSize]
    omega
  rw [trimRightInPlace, hint, hindex, hsize, resize, if_neg hfits, resized,
    Nat.sub_eq_zero_of_le hkept, List.replicate_zero, List.append_nil, htake, List.take_length]

/-- A text has one core, which is what is left of it; going back for the end of it never leaves it
at the front, and on the right the longest part that does not end in white space is kept. -/
theorem trim_is_core (isspace : UInt8 → Bool) (s : Bytes) :
    ∃ t, (trim isspace s : Outcome ε Bytes) = .ok t ∧ (∀ u, IsCore isspace s u ↔ u = t) ∧
      (trim isspace t : Outcome ε Bytes) = .ok t ∧
      ((∀ c ∈ s, isspace c = true) ∨ ∃ last places,
        (backward isspace s s.length : Outcome ε _) = .ok (last, places) ∧
          ∀ place ∈ places, (s.takeWhile isspace).length ≤ place) ∧
      (s.length < 2 ^ 31 → ∃ r, trimRightInPlace isspace s = .ok r ∧ r <+: s ∧
        (∀ c ∈ r.getLast?, isspace c = false) ∧
        ∀ u, u <+: s → (∀ c ∈ u.getLast?, isspace c = false) → u <+: r) := by
  refine ⟨strip isspace s, trim_eq isspace s, fun u => isCore_iff,
    (trim_eq isspace _).trans (congrArg Except.ok (strip_strip isspace s)), ?_, ?_⟩
  · by_cases hfirst : forward isspace s 0 = s.length
    · refine Or.inl (List.takeWhile_eq_self_iff.mp ?_)
      rw [forward_eq] at hfirst
      exact (List.takeWhile_prefix isspace).eq_of_length hfirst
    · obtain ⟨last, places, hrun, -, hplaces⟩ := backward_from_end hfirst
      rw [forward_eq] at hplaces
      exact Or.inr ⟨last, places, hrun, hplaces⟩
  · intro hlength
    refine ⟨s.rdropWhile isspace, trimRightInPlace_eq hlength, List.rdropWhile_prefix _ _, ?_,
      fun u => prefix_rdropWhile⟩
    intro c hc
    obtain ⟨hne, rfl⟩ := List.mem_getLast?_eq_getLast hc
    exact Bool.eq_false_of_not_eq_true (List.rdropWhile_last_not _ _ hne)

end Warhead.StringFormat
