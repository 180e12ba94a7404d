import WarheadFix.Common.LogConfig

/-! Cutting a text at a separator. The loop carries the place where the token begins and the place
where the separator was found, and ends with the closed form that the loading of the log uses
(`tokenize_options`). -/

namespace Warhead.Tokenize
open Lib

structure OutOfRange where
  deriving DecidableEq

def find (str : Bytes) (sep : UInt8) (start : Nat) : Option Nat :=
  ((str.drop start).findIdx? (· = sep)).map (start + ·)

def substr (str : Bytes) (pos count : Nat) : Outcome OutOfRange Bytes :=
  if str.length < pos then .error (.thrown {}) else .ok ((str.drop pos).take count)

def pushIf (wanted : Bool) (str : Bytes) (pos count : Nat) (tokens : List Bytes) :
    Outcome OutOfRange (List Bytes) := do
  if wanted then return tokens ++ [← substr str pos count] else return tokens

variable {str : Bytes} {sep : UInt8} {start place : Nat}

theorem find_eq_some (h : find str sep start = some place) :
    ∃ token, start + token.length = place ∧ place < str.length ∧ sep ∉ token ∧
      str.drop start = token ++ sep :: str.drop (place + 1) := by
  obtain ⟨i, hi, rfl⟩ := Option.map_eq_some_iff.mp h
  obtain ⟨hlt, hsep, hbefore⟩ := List.findIdx?_eq_some_iff_getElem.mp hi
  have hlength : (str.drop start).length = str.length - start := List.length_drop
  refine ⟨(str.drop start).take i, ?_, ?_, ?_, ?_⟩
  · rw [List.length_take]
    omega
  · omega
  · intro hmem
    obtain ⟨k, hk, heq⟩ := List.mem_iff_getElem.mp hmem
    rw [List.length_take] at hk
    rw [List.getElem_take] at heq
    exact hbefore k (by omega) (decide_eq_true heq)
  · have hrest : str.drop (start + i + 1) = (str.drop start).drop (i + 1) := by
      rw [List.drop_drop, Nat.add_assoc]
    rw [hrest, ← of_decide_eq_true hsep, ← List.drop_eq_getElem_cons hlt, List.take_append_drop]

theorem find_eq_none (h : find str sep start = none) : sep ∉ str.drop start := by
  have hnone := List.findIdx?_eq_none_iff.mp (Option.map_eq_none_iff.mp h)
  intro hmem
  exact absurd (hnone sep hmem) (by simp)

def tokenizeFrom (str : Bytes) (sep : UInt8) (keepEmpty : Bool) (start : Nat)
    (tokens : List Bytes) : Outcome OutOfRange (List Bytes) :=
  match h : find str sep start with
  | some place => do
    let tokens ← pushIf (keepEmpty || decide (start < place)) str start (place - start) tokens
    tokenizeFrom str sep keepEmpty (place + 1) tokens
  | none => pushIf (keepEmpty || decide (start < str.length)) str start str.length tokens
termination_by str.length + 1 - start
decreasing_by
  obtain ⟨token, hplace, hlt, -⟩ := find_eq_some h
  omega

def tokenize (str : Bytes) (sep : UInt8) (keepEmpty : Bool) : Outcome OutOfRange (List Bytes) :=
  tokenizeFrom str sep keepEmpty 0 []

theorem pushIf_eq (wanted : Bool) (hstart : start ≤ str.length) (count : Nat) (tokens : List Bytes) :
    pushIf wanted str start count tokens =
      .ok (tokens ++ if wanted then [(str.drop start).take count] else []) := by
  unfold pushIf substr
  rw [if_neg (Nat.not_lt.mpr hstart)]
  cases wanted with
  | true => rfl
  | false =>
    rw [if_neg Bool.false_ne_true, if_neg Bool.false_ne_true, List.append_nil]
    rfl

theorem tokenizeFrom_eq (keepEmpty : Bool) (start : Nat) (tokens : List Bytes)
    (hstart : start ≤ str.length) : tokenizeFrom str sep keepEmpty start tokens =
      .ok (tokens ++ ((str.drop start).splitOn sep).filter fun token => keepEmpty || token != []) := by
  fun_induction tokenizeFrom str sep keepEmpty start tokens with
  | case1 start tokens place h ih =>
    obtain ⟨token, rfl, hlt, hsep, hrest⟩ := find_eq_some h
    have htake : (str.drop start).take (start + token.length - start) = token := by
      rw [hrest, Nat.add_sub_cancel_left, List.take_left]
    have hempty : decide (start < start + token.length) = (token != []) := by
      cases token <;> simp
    rw [pushIf_eq _ hstart, htake, hempty, bind_of_ok rfl, ih _ hlt, hrest,
      List.splitOn_append_cons_self_of_not_mem hsep, List.filter_cons]
    split_ifs <;> simp
  | case2 start tokens h =>
    have hempty : decide (start < str.length) = (str.drop start != []) := by
      rw [Bool.eq_iff_iff, decide_eq_true_iff, bne_iff_ne, Ne, List.drop_eq_nil_iff, Nat.not_le]
    rw [pushIf_eq _ hstart, List.take_of_length_le (List.length_drop.trans_le (Nat.sub_le ..)), hempty,
      List.splitOn_eq_singleton (find_eq_none h), List.filter_singleton]
    cases keepEmpty || str.drop start != [] <;> rfl

theorem tokenize_eq (str : Bytes) (sep : UInt8) (keepEmpty : Bool) :
    tokenize str sep keepEmpty =
      .ok ((str.splitOn sep).filter fun token => keepEmpty || token != []) :=
  tokenizeFrom_eq keepEmpty 0 [] (Nat.zero_le _)

theorem tokenize_options (str : Bytes) (sep : UInt8) (keepEmpty : Bool) :
    tokenize str sep keepEmpty = .ok (Log.tokenize str sep keepEmpty) :=
  tokenize_eq str sep keepEmpty

theorem not_mem_of_mem_splitOn {token : Bytes} (h : token ∈ str.splitOn sep) : sep ∉ token := by
  induction str generalizing token with
  | nil =>
    rw [List.splitOn_nil, List.mem_singleton] at h
    rw [h]
    exact List.not_mem_nil
  | cons c str ih =>
    rw [List.splitOn_cons_eq_if_modifyHead] at h
    obtain ⟨first, rest, hsplit⟩ := List.exists_cons_of_ne_nil (List.splitOn_ne_nil sep str)
    rw [hsplit] at h ih
    split_ifs at h with hc
    · rcases List.mem_cons.mp h with rfl | h
      · exact List.not_mem_nil
      · exact ih h
    · rcases List.mem_cons.mp h with rfl | h
      · have hfirst : sep ∉ first := ih List.mem_cons_self
        simp only [beq_iff_eq] at hc
        simp [hfirst, Ne.symm hc]
      · exact ih (List.mem_cons_of_mem _ h)

theorem length_splitOn (str : Bytes) (sep : UInt8) :
    (str.splitOn sep).length = str.count sep + 1 := by
  induction str with
  | nil => rfl
  | cons c str ih =>
    rw [List.splitOn_cons_eq_if_modifyHead, List.count_cons]
    split_ifs
    · rw [List.length_cons, ih]
    · rw [List.length_modifyHead, ih, Nat.add_zero]

theorem tokenize_intercalate {ws : List Bytes} (h : ∀ w ∈ ws, w ≠ [] ∧ sep ∉ w) :
    tokenize ([sep].intercalate ws) sep false = .ok ws := by
  rw [tokenize_eq]
  cases ws with
  | nil => rfl
  | cons w ws =>
    rw [List.splitOn_intercalate sep (fun w hw => (h w hw).2) (List.cons_ne_nil _ _),
      List.filter_eq_self.mpr]
    exact fun w hw => bne_iff_ne.mpr (h w hw).1

/-- With the empty tokens it is the inverse of joining, and without them nothing else is left out. -/
theorem tokenize_inverse_join (str : Bytes) (sep : UInt8) :
    ∃ tokens, tokenize str sep true = .ok tokens ∧ tokens ≠ [] ∧
      (∀ token ∈ tokens, sep ∉ token) ∧ [sep].intercalate tokens = str ∧
      tokens.length = str.count sep + 1 ∧
      tokenize str sep false = .ok (tokens.filter (· ≠ [])) := by
  refine ⟨str.splitOn sep, ?_, List.splitOn_ne_nil sep str,
    fun _ => not_mem_of_mem_splitOn, List.intercalate_splitOn sep, length_splitOn str sep, ?_⟩
  · rw [tokenize_eq]
    simp
  · rw [tokenize_eq]
    congr 2
    funext token
    cases token <;> rfl

end Warhead.Tokenize
