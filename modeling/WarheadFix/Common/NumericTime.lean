import WarheadFix.Common.TimeString

/-! Durations with colons between the counts. A count of zero leaves no field behind, so the fields
stand for one unit after the other if and only if no zero comes before a count that is written. -/

namespace Warhead.Time
open Lib Places

def numericStep (s : Out) (c : UInt64 × TimeUnit) : Out :=
  if c.1 ≠ 0 then s.addOutNumerlic c.1 else s

def addField (s : Out) (c : UInt64 × TimeUnit) : Out :=
  if !s.isFirst then ⟨s.out ++ (digits c.1.toNat ++ ascii ":"), s.count + 1, true⟩
  else { s with out := s.out ++ (Out.padded c.1.toNat ++ ascii ":"), count := s.count + 1 }

def fieldsOf : List (Nat × TimeUnit) → List Bytes
  | [] => []
  | c :: cs => digits c.1 :: cs.map fun c => Out.padded c.1

theorem toTimeString_numeric (d : Int64) : toTimeString d .numeric =
    .ok ((unitTimes d).foldl numericStep Out.empty).out.dropLast := rfl

theorem count_addField (s : Out) (c : UInt64 × TimeUnit) : (addField s c).count = s.count + 1 := by
  unfold addField
  split_ifs <;> rfl

theorem foldl_addField (cs : List (UInt64 × TimeUnit)) {s : Out} (h : s.isFirst = true) :
    (cs.foldl addField s).out =
      s.out ++ (cs.map fun c => Out.padded c.1.toNat).flatMap (· ++ [58]) := by
  induction cs generalizing s with
  | nil => exact (List.append_nil _).symm
  | cons c cs ih =>
    have hstep : addField s c =
        { s with out := s.out ++ (Out.padded c.1.toNat ++ [58]), count := s.count + 1 } := by
      rw [addField, h]
      rfl
    rw [List.foldl_cons, hstep, ih, List.map_cons, List.flatMap_cons, List.append_assoc]
    exact h

theorem foldl_addField_empty (cs : List (UInt64 × TimeUnit)) :
    (cs.foldl addField Out.empty).out =
      (fieldsOf (cs.map fun c => (c.1.toNat, c.2))).flatMap (· ++ [58]) := by
  cases cs with
  | nil => rfl
  | cons c cs =>
    rw [List.foldl_cons, foldl_addField cs rfl, List.map_cons, fieldsOf, List.flatMap_cons,
      List.map_map]
    rfl

theorem dropLast_words (sep : UInt8) (ws : List Bytes) :
    (ws.flatMap (· ++ [sep])).dropLast = [sep].intercalate ws := by
  rcases List.eq_nil_or_concat' ws with rfl | ⟨ws, w, rfl⟩
  · rfl
  · rw [intercalate_concat, List.flatMap_append, List.flatMap_singleton, ← List.append_assoc,
      List.dropLast_concat]

theorem toTimeString_fields {d : Int64} (hd : 0 ≤ d) :
    toTimeString d .numeric = .ok ([58].intercalate (fieldsOf (shown d))) := by
  rw [toTimeString_numeric, ← dropLast_words, ← shown_eq hd, ← foldl_addField_empty]
  exact congrArg (fun s : Out => Except.ok s.out.dropLast)
    (foldl_take_filter count_addField 3 (unitTimes d) Out.empty)

/-! ## The fields -/

def fields (text : Bytes) : Option (List Nat) :=
  match Tokenize.tokenize text 58 false with
  | .error _ => none
  | .ok tokens => some (tokens.map decimal)

theorem decimal_padded (n : Nat) : decimal (Out.padded n) = n := by
  rw [Out.padded, decimal_replicate_append, decimal_digits]

theorem isDigits_padded (n : Nat) : IsDigits (Out.padded n) :=
  List.forall_mem_append.mpr ⟨fun c hc => by rw [List.eq_of_mem_replicate hc]; decide,
    isDigits_digits n⟩

theorem fields_fieldsOf (cs : List (Nat × TimeUnit)) :
    fields ([58].intercalate (fieldsOf cs)) = some (cs.map Prod.fst) := by
  have hfield : ∀ token ∈ fieldsOf cs, token ≠ [] ∧ IsDigits token := by
    cases cs with
    | nil => exact fun _ h => absurd h List.not_mem_nil
    | cons c cs =>
      refine List.forall_mem_cons.mpr ⟨⟨digits_ne_nil _, isDigits_digits _⟩, ?_⟩
      refine List.forall_mem_map.mpr fun c _ => ⟨?_, isDigits_padded _⟩
      exact List.append_ne_nil_of_right_ne_nil _ (digits_ne_nil _)
  have hsep : ∀ token ∈ fieldsOf cs, token ≠ [] ∧ (58 : UInt8) ∉ token := fun token h =>
    ⟨(hfield token h).1, fun hmem => absurd ((hfield token h).2 58 hmem).2 (by decide)⟩
  have hnumbers : (fieldsOf cs).map decimal = cs.map Prod.fst := by
    cases cs with
    | nil => rfl
    | cons c cs =>
      rw [fieldsOf, List.map_cons, List.map_map, decimal_digits, List.map_cons]
      exact congrArg _ (List.map_congr_left fun c _ => decimal_padded c.1)
  rw [fields, Tokenize.tokenize_intercalate hsep]
  exact congrArg some hnumbers

/-! ## Their positions -/

def fromLargest (d : Int64) : List (Nat × TimeUnit) := (unitCounts d).dropWhile fun c => c.1 = 0

def largest (d : Int64) : Option TimeUnit := (fromLargest d).head?.map Prod.snd

/-- The fields of the text are the counts of the largest unit, of the next smaller one, and so
on. -/
def Positional (d : Int64) : Prop := ∃ text ns, toTimeString d .numeric = .ok text ∧
  fields text = some ns ∧ ns <+: (fromLargest d).map Prod.fst

def Gapless (d : Int64) : Prop :=
  3 ≤ ((fromLargest d).takeWhile fun c => c.1 ≠ 0).length ∨
    ∀ c ∈ (fromLargest d).dropWhile fun c => c.1 ≠ 0, c.1 = 0

instance (d : Int64) : Decidable (Gapless d) := inferInstanceAs (Decidable (_ ∨ _))

theorem shown_eq_take (d : Int64) : shown d = (nonZero (fromLargest d)).take 3 := by
  rw [fromLargest, nonZero_dropWhile, shown]

theorem shown_prefix_iff (d : Int64) : shown d <+: fromLargest d ↔ Gapless d := by
  rw [shown_eq_take, nonZero, take_filter_prefix_iff, Gapless]
  simp

theorem positional_iff_gapless {d : Int64} (hd : 0 ≤ d) : Positional d ↔ Gapless d := by
  have hprefix : (shown d).map Prod.fst <+: (fromLargest d).map Prod.fst ↔ Gapless d := by
    have hiff := map_take_filter_prefix_iff Prod.fst (fun n : Nat => decide (n ≠ 0)) 3 (fromLargest d)
    rw [shown_eq_take, nonZero, Gapless]
    simpa [Function.comp_def] using hiff
  rw [← hprefix]
  constructor
  · rintro ⟨text, ns, htext, hns, hpre⟩
    rw [toTimeString_fields hd] at htext
    rw [← Except.ok.inj htext, fields_fieldsOf] at hns
    rwa [Option.some.inj hns]
  · exact fun hpre => ⟨_, _, toTimeString_fields hd, fields_fieldsOf _, hpre⟩

theorem units_suffix (d : Int64) : (fromLargest d).map Prod.snd <:+ TimeUnit.all := by
  have hunits : (unitCounts d).map Prod.snd = TimeUnit.all := map_snd_counts _ _
  rw [← hunits]
  exact (List.dropWhile_suffix _).map Prod.snd

theorem shown_unique {d d' : Int64} (h : Gapless d) (h' : Gapless d')
    (hlargest : largest d = largest d') (hcounts : (shown d).map Prod.fst = (shown d').map Prod.fst) :
    shown d = shown d' := by
  have hunits : (fromLargest d).map Prod.snd = (fromLargest d').map Prod.snd := by
    refine suffix_eq_of_head (by decide) (units_suffix d) (units_suffix d') ?_
    rw [List.head?_map, List.head?_map]
    exact hlargest
  have hlength : (shown d).length = (shown d').length := by
    rw [← List.length_map Prod.fst, hcounts, List.length_map]
  have hpre := ((shown_prefix_iff d).mpr h).map Prod.snd
  have hpre' := ((shown_prefix_iff d').mpr h').map Prod.snd
  rw [hunits] at hpre
  have hsame : (shown d).map Prod.snd = (shown d').map Prod.snd := by
    refine (List.prefix_of_prefix_length_le hpre hpre' ?_).eq_of_length ?_ <;>
      simp [hlength]
  rw [List.zip_of_prod hcounts hsame]
  exact (List.zip_of_prod rfl rfl).symm

/-- The fields stand for one unit after the other if and only if there is no gap, and then the text
and the largest unit say how often each unit that is shown goes in. -/
theorem numeric_positional_iff (d d' : Int64) (hd : 0 ≤ d) (hd' : 0 ≤ d') :
    (Positional d ↔ Gapless d) ∧
    (Gapless d → Gapless d' → largest d = largest d' →
      toTimeString d .numeric = toTimeString d' .numeric → shown d = shown d') := by
  refine ⟨positional_iff_gapless hd, fun h h' hlargest htext => ?_⟩
  refine shown_unique h h' hlargest (Option.some.inj ?_)
  rw [toTimeString_fields hd, toTimeString_fields hd'] at htext
  rw [← fields_fieldsOf, Except.ok.inj htext, fields_fieldsOf]

theorem numeric_positional_iff_day : Positional 93784000000 ∧
    shown 93784000000 = shown 93784000001 := by
  obtain ⟨hiff, hsame⟩ := numeric_positional_iff 93784000000 93784000001 (by decide) (by decide)
  exact ⟨hiff.mpr (by decide), hsame (by decide) (by decide) rfl rfl⟩

/-- A day and five minutes, and a day and five hours. -/
theorem numeric_not_positional : ¬Positional 86700000000 ∧
    largest 86700000000 = largest 104400000000 ∧
    toTimeString 86700000000 .numeric = toTimeString 104400000000 .numeric ∧
    shown 86700000000 ≠ shown 104400000000 := by
  refine ⟨?_, rfl, rfl, by decide⟩
  rw [positional_iff_gapless (by decide)]
  decide

end Warhead.Time
