import WarheadFix.Lib.FixFrame

/-! Format strings of the vendored formatting library. Parsing one calls a handler for every
text, escape and replacement field it meets; what the handler writes is the result. -/

namespace Warhead.Fmt
open Lib

structure FormatError where
  what : Bytes
  deriving DecidableEq

/-- An argument: what it writes without a specification, and what it makes of one. The
specification may take indices of its own; it says how many characters it has read. -/
structure Arg where
  name : Option Bytes
  text : Except FormatError Bytes
  specs : Int → Bytes → Except FormatError (Bytes × Int × Nat)

def Arg.plain (s : Bytes) : Arg := ⟨none, .ok s, fun _ _ => .error ⟨ascii "invalid type specifier"⟩⟩

inductive Piece where
  | text (c : UInt8)
  | escaped (c : UInt8)
  | field (s : Bytes)
  deriving DecidableEq

def Piece.bytes : Piece → Bytes
  | .text c => [c]
  | .escaped c => [c]
  | .field s => s

def openBrace : UInt8 := 123

def closeBrace : UInt8 := 125

def colon : UInt8 := 58

/-! ## Argument indices -/

def isDigit (c : UInt8) : Bool := 48 ≤ c && c ≤ 57

def isNameStart (c : UInt8) : Bool := (97 ≤ c && c ≤ 122) || (65 ≤ c && c ≤ 90) || c = 95

def nextArgId (next : Int) : Except FormatError (Nat × Int) :=
  if 0 ≤ next then .ok (next.toNat, next + 1)
  else .error ⟨ascii "cannot switch from manual to automatic argument indexing"⟩

def checkArgId (next : Int) : Except FormatError Int :=
  if 0 < next then .error ⟨ascii "cannot switch from automatic to manual argument indexing"⟩
  else .ok (-1)

/-- An index too large for an `int` is taken for the largest one. -/
def parseNonnegativeInt (s : Bytes) : Nat × Bytes :=
  (min (decimal (s.takeWhile isDigit)) (2 ^ 31 - 1), s.dropWhile isDigit)

def parseArgId (args : List Arg) (next : Int) (c : UInt8) (cs : Bytes) :
    Except FormatError (Nat × Int × Bytes) :=
  if c = closeBrace ∨ c = colon then do
    let (id, next) ← nextArgId next
    pure (id, next, c :: cs)
  else if isDigit c then
    let (index, rest) := if c = 48 then (0, cs) else parseNonnegativeInt (c :: cs)
    if rest.head? = some closeBrace ∨ rest.head? = some colon then do
      let next ← checkArgId next
      pure (index, next, rest)
    else .error ⟨ascii "invalid format string"⟩
  else if isNameStart c then
    let name := (c :: cs).takeWhile fun d => isNameStart d || isDigit d
    match args.findIdx? (·.name = some name) with
    | none => .error ⟨ascii "argument not found"⟩
    | some id => .ok (id, next, (c :: cs).dropWhile fun d => isNameStart d || isDigit d)
  else .error ⟨ascii "invalid format string"⟩

def getArg (args : List Arg) (id : Nat) : Except FormatError Arg :=
  match args[id]? with
  | none => .error ⟨ascii "argument not found"⟩
  | some arg => .ok arg

/-! ## Replacement fields -/

def onReplacementField (args : List Arg) (id : Nat) (next : Int) (rest : Bytes) :
    Except FormatError (Piece × Int × Bytes) := do
  let arg ← getArg args id
  let text ← arg.text
  pure (.field text, next, rest)

def onFormatSpecs (args : List Arg) (id : Nat) (next : Int) (spec : Bytes) :
    Except FormatError (Piece × Int × Bytes) := do
  let arg ← getArg args id
  let (text, next, n) ← arg.specs next spec
  match spec.drop n with
  | [] => .error ⟨ascii "unknown format specifier"⟩
  | c :: rest =>
    if c = closeBrace then .ok (.field text, next, rest)
    else .error ⟨ascii "unknown format specifier"⟩

def parseReplacementField (args : List Arg) (next : Int) :
    Bytes → Except FormatError (Piece × Int × Bytes)
  | [] => .error ⟨ascii "invalid format string"⟩
  | c :: cs =>
    if c = closeBrace then do
      let (id, next) ← nextArgId next
      onReplacementField args id next cs
    else if c = openBrace then .ok (.escaped openBrace, next, cs)
    else do
      let (id, next, rest) ← parseArgId args next c cs
      match rest with
      | [] => .error ⟨ascii "missing '\x7d' in format string"⟩
      | d :: rest =>
        if d = closeBrace then onReplacementField args id next rest
        else if d = colon then onFormatSpecs args id next rest
        else .error ⟨ascii "missing '\x7d' in format string"⟩

section Lengths
variable {args : List Arg} {next next' : Int} {id : Nat} {p : Piece} {s rest : Bytes}

theorem onReplacementField_rest {r : Piece × Int × Bytes}
    (h : onReplacementField args id next s = .ok r) : r.2.2 = s := by
  obtain ⟨_, _, h⟩ := bind_eq_ok.mp h
  obtain ⟨_, _, h⟩ := bind_eq_ok.mp h
  exact congrArg (·.2.2) (Except.ok.inj h).symm

theorem onFormatSpecs_rest {r : Piece × Int × Bytes}
    (h : onFormatSpecs args id next s = .ok r) : r.2.2.length ≤ s.length := by
  obtain ⟨_, _, h⟩ := bind_eq_ok.mp h
  obtain ⟨⟨_, _, n⟩, _, h⟩ := bind_eq_ok.mp h
  have hdrop : (s.drop n).length ≤ s.length := (List.drop_sublist ..).length_le
  simp only at h
  split at h
  · cases h
  · rename_i hs
    rw [hs] at hdrop
    split_ifs at h
    cases h
    exact (Nat.le_succ _).trans hdrop

theorem parseNonnegativeInt_rest (s : Bytes) : (parseNonnegativeInt s).2.length ≤ s.length :=
  (List.dropWhile_sublist _).length_le

theorem parseArgId_rest {c : UInt8} {r : Nat × Int × Bytes}
    (h : parseArgId args next c s = .ok r) : r.2.2.length ≤ (c :: s).length := by
  unfold parseArgId at h
  split_ifs at h with _ _ hzero
  · obtain ⟨_, _, h⟩ := bind_eq_ok.mp h
    cases h
    exact le_rfl
  · simp only at h
    split_ifs at h
    obtain ⟨_, _, h⟩ := bind_eq_ok.mp h
    cases h
    exact Nat.le_succ _
  · simp only at h
    split_ifs at h
    obtain ⟨_, _, h⟩ := bind_eq_ok.mp h
    cases h
    exact parseNonnegativeInt_rest (c :: s)
  · simp only at h
    split at h
    · cases h
    · cases h
      exact (List.dropWhile_sublist _).length_le

theorem parseReplacementField_rest (h : parseReplacementField args next s = .ok (p, next', rest)) :
    rest.length ≤ s.length := by
  cases s with
  | nil => cases h
  | cons c cs =>
    simp only [parseReplacementField] at h
    split_ifs at h
    · obtain ⟨_, _, h⟩ := bind_eq_ok.mp h
      have hrest := onReplacementField_rest h
      simp only at hrest
      rw [hrest]
      exact Nat.le_succ _
    · cases h
      exact Nat.le_succ _
    · obtain ⟨⟨id, n, after⟩, harg, h⟩ := bind_eq_ok.mp h
      have hafter : after.length ≤ (c :: cs).length := parseArgId_rest harg
      cases after with
      | nil => cases h
      | cons d after =>
        simp only at h
        apply ((Nat.le_succ _).trans hafter).trans'
        split_ifs at h
        · exact (congrArg List.length (onReplacementField_rest h)).le
        · exact onFormatSpecs_rest h

end Lengths

/-! ## The whole string -/

/-- The loop for short strings; the one for long strings looks for the opening braces first
and finds the same pieces in the same order. -/
def parseFormatString (args : List Arg) (next : Int) : Bytes → Except FormatError (List Piece)
  | [] => .ok []
  | c :: cs =>
    if c = openBrace then
      match h : parseReplacementField args next cs with
      | .error e => .error e
      | .ok (p, next, rest) =>
        have : rest.length ≤ cs.length := parseReplacementField_rest h
        (parseFormatString args next rest).map (p :: ·)
    else if c = closeBrace then
      match cs with
      | [] => .error ⟨ascii "unmatched '\x7d' in format string"⟩
      | d :: rest =>
        if d = closeBrace then
          (parseFormatString args next rest).map (.escaped closeBrace :: ·)
        else .error ⟨ascii "unmatched '\x7d' in format string"⟩
    else (parseFormatString args next cs).map (.text c :: ·)
termination_by s => s.length

def written (ps : List Piece) : Bytes := ps.flatMap Piece.bytes

def format (fmt : Bytes) (args : List Arg) : Except FormatError Bytes :=
  (parseFormatString args 0 fmt).map written

section Equations
variable {args : List Arg} {next : Int} {c : UInt8} {cs : Bytes}

@[simp] theorem parseFormatString_nil : parseFormatString args next [] = .ok [] := by
  rw [parseFormatString]

theorem parseFormatString_open : parseFormatString args next (openBrace :: cs) =
    (parseReplacementField args next cs).bind fun (p, next, rest) =>
      (parseFormatString args next rest).map (p :: ·) := by
  rw [parseFormatString.eq_def]
  simp only [if_pos]
  split
  · rename_i h
    rw [h]
    rfl
  · rename_i h
    rw [h]
    rfl

theorem parseFormatString_close_close :
    parseFormatString args next (closeBrace :: closeBrace :: cs) =
      (parseFormatString args next cs).map (.escaped closeBrace :: ·) := by
  have hne : closeBrace ≠ openBrace := by decide
  rw [parseFormatString.eq_def]
  simp only [if_neg hne, if_pos]

theorem parseFormatString_close (h : cs.head? ≠ some closeBrace) :
    parseFormatString args next (closeBrace :: cs) =
      .error ⟨ascii "unmatched '\x7d' in format string"⟩ := by
  have hne : closeBrace ≠ openBrace := by decide
  rw [parseFormatString.eq_def]
  simp only [if_neg hne, if_pos]
  cases cs with
  | nil => rfl
  | cons d rest =>
    have hd : d ≠ closeBrace := fun he => h (congrArg some he)
    simp only [if_neg hd]

theorem parseFormatString_text (ho : c ≠ openBrace) (hc : c ≠ closeBrace) :
    parseFormatString args next (c :: cs) =
      (parseFormatString args next cs).map (.text c :: ·) := by
  rw [parseFormatString.eq_def]
  simp only [if_neg ho, if_neg hc]

end Equations

/-! ## Text without braces -/

def Braceless (s : Bytes) : Prop := ∀ c ∈ s, c ≠ openBrace ∧ c ≠ closeBrace

instance (s : Bytes) : Decidable (Braceless s) := by
  unfold Braceless
  infer_instance

def Verbatim (s : Bytes) : Prop :=
  ∃ ps, parseFormatString [] 0 s = .ok ps ∧ ∀ p ∈ ps, ∃ c, p = .text c

theorem written_texts (u : Bytes) : written (u.map .text) = u := by
  unfold written
  rw [List.flatMap_map]
  exact List.flatMap_singleton' u

theorem parseFormatString_append (args : List Arg) (next : Int) {u : Bytes} (hu : Braceless u)
    (s : Bytes) : parseFormatString args next (u ++ s) =
      (parseFormatString args next s).map (u.map .text ++ ·) := by
  induction u with
  | nil =>
    rw [List.nil_append, List.map_nil]
    cases parseFormatString args next s with
    | error e => rfl
    | ok ps => rfl
  | cons c cs ih =>
    obtain ⟨hc, hcs⟩ := List.forall_mem_cons.mp hu
    rw [List.cons_append, parseFormatString_text hc.1 hc.2, ih hcs]
    cases parseFormatString args next s with
    | error e => rfl
    | ok ps => rfl

theorem parseFormatString_braceless (args : List Arg) (next : Int) {u : Bytes}
    (hu : Braceless u) : parseFormatString args next u = .ok (u.map .text) := by
  have h := parseFormatString_append args next hu []
  rw [List.append_nil, parseFormatString_nil] at h
  rw [h]
  exact congrArg Except.ok (List.append_nil _)

/-! ## Fields without a specification -/

theorem parseFormatString_field {args : List Arg} {n : Nat} {s cs : Bytes}
    (h : args[n]? = some (.plain s)) :
    parseFormatString args n (openBrace :: closeBrace :: cs) =
      (parseFormatString args (n + 1 : Nat) cs).map (.field s :: ·) := by
  have hfield : parseReplacementField args n (closeBrace :: cs) =
      .ok (.field s, (n + 1 : Nat), cs) := by
    rw [parseReplacementField, if_pos rfl, nextArgId, if_pos (Int.natCast_nonneg n)]
    show onReplacementField args (Int.toNat n) (n + 1) cs = _
    rw [Int.toNat_natCast, onReplacementField, getArg, h]
    rfl
  rw [parseFormatString_open, hfield]
  rfl

def fieldPieces (fields : List (Bytes × Bytes)) (last : Bytes) : List Piece :=
  fields.flatMap (fun f => f.1.map .text ++ [.field f.2]) ++ last.map .text

theorem parseFormatString_fields {fields : List (Bytes × Bytes)} {last : Bytes}
    (hfields : ∀ f ∈ fields, Braceless f.1) (hlast : Braceless last) (before : List Arg) :
    parseFormatString (before ++ fields.map (.plain ·.2)) before.length
        (fields.flatMap (fun f => f.1 ++ [openBrace, closeBrace]) ++ last) =
      .ok (fieldPieces fields last) := by
  -- The arguments of the fields already read stand in front.
  induction fields generalizing before with
  | nil => exact parseFormatString_braceless _ _ hlast
  | cons f fields ih =>
    obtain ⟨hf, hfields⟩ := List.forall_mem_cons.mp hfields
    have harg : (before ++ (f :: fields).map (Arg.plain ·.2))[before.length]? = some (.plain f.2) := by
      rw [List.getElem?_append_right le_rfl, Nat.sub_self]
      rfl
    have hargs : before ++ (f :: fields).map (Arg.plain ·.2) =
        (before ++ [.plain f.2]) ++ fields.map (.plain ·.2) := by
      rw [List.append_assoc]
      rfl
    have hrest := ih hfields (before ++ [.plain f.2])
    rw [← hargs, List.length_append, List.length_singleton] at hrest
    rw [List.flatMap_cons, List.append_assoc, List.append_assoc, parseFormatString_append _ _ hf]
    show (parseFormatString _ _ (openBrace :: closeBrace :: (fields.flatMap _ ++ last))).map _ = _
    rw [parseFormatString_field harg, hrest]
    show Except.ok _ = Except.ok _
    rw [fieldPieces, fieldPieces, List.flatMap_cons, List.append_assoc, List.append_assoc]
    rfl

theorem format_fields {fields : List (Bytes × Bytes)} {last : Bytes}
    (hfields : ∀ f ∈ fields, Braceless f.1) (hlast : Braceless last) :
    format (fields.flatMap (fun f => f.1 ++ [openBrace, closeBrace]) ++ last)
        (fields.map (.plain ·.2)) = .ok (fields.flatMap (fun f => f.1 ++ f.2) ++ last) := by
  rw [format]
  have h := parseFormatString_fields hfields hlast []
  rw [List.nil_append] at h
  refine (congrArg (Except.map written) h).trans (congrArg Except.ok ?_)
  rw [written, fieldPieces, List.flatMap_append, List.flatMap_assoc]
  show _ ++ written (last.map .text) = _
  rw [written_texts]
  congr 2
  funext f
  rw [List.flatMap_append]
  show written (f.1.map .text) ++ _ = _
  rw [written_texts]
  simp only [List.flatMap_cons, List.flatMap_nil, List.append_nil, Piece.bytes]

/-! ## A string formatted without arguments -/

theorem parseReplacementField_no_args {next : Int} {s : Bytes} {r : Piece × Int × Bytes}
    (h : parseReplacementField [] next s = .ok r) :
    s = openBrace :: r.2.2 ∧ r.1 = .escaped openBrace ∧ r.2.1 = next := by
  -- only an escape can stand where an argument would have to be
  have hnone : ∀ {id : Nat} {n : Int} {t : Bytes},
      onReplacementField [] id n t ≠ .ok r ∧ onFormatSpecs [] id n t ≠ .ok r :=
    ⟨(by cases ·), (by cases ·)⟩
  cases s with
  | nil => cases h
  | cons c cs =>
    simp only [parseReplacementField] at h
    split_ifs at h with _ hc
    · obtain ⟨_, _, h⟩ := bind_eq_ok.mp h
      exact absurd h hnone.1
    · cases h
      exact ⟨congrArg (· :: cs) hc, rfl, rfl⟩
    · obtain ⟨⟨_, _, rest⟩, _, h⟩ := bind_eq_ok.mp h
      simp only at h
      split at h
      · cases h
      · split_ifs at h
        · exact absurd h hnone.1
        · exact absurd h hnone.2

theorem written_cons (p : Piece) (ps : List Piece) : written (p :: ps) = p.bytes ++ written ps := rfl

/-- A brace that does not stop the parser is one of two, and the result is shorter for it. -/
def Shortened (s : Bytes) (ps : List Piece) : Prop :=
  (written ps).length < s.length ∧ ∃ c, .escaped c ∈ ps

section Shortened
variable {b c d : UInt8} {s rest : Bytes} {ps : List Piece}

theorem Shortened.escaped (h : (written ps).length ≤ rest.length) :
    Shortened (c :: d :: rest) (.escaped b :: ps) := by
  refine ⟨?_, b, List.mem_cons_self ..⟩
  rw [written_cons, List.length_append, List.length_cons, List.length_cons]
  show 1 + (written ps).length < rest.length + 2
  omega

theorem Shortened.text (h : Shortened s ps) : Shortened (c :: s) (.text c :: ps) := by
  obtain ⟨hlt, b, hb⟩ := h
  refine ⟨?_, b, List.mem_cons_of_mem _ hb⟩
  rw [written_cons, List.length_append, List.length_cons, Nat.add_comm]
  exact Nat.add_lt_add_right hlt 1

end Shortened

theorem length_written_le {next : Int} {s : Bytes} {ps : List Piece}
    (h : parseFormatString [] next s = .ok ps) (hs : Braceless s ∨ Shortened s ps) :
    (written ps).length ≤ s.length := by
  obtain hs | hs := hs
  · rw [parseFormatString_braceless [] next hs] at h
    rw [← Except.ok.inj h, written_texts]
  · exact hs.1.le

theorem braceless_or_shortened {next : Int} {s : Bytes} {ps : List Piece}
    (h : parseFormatString [] next s = .ok ps) : Braceless s ∨ Shortened s ps := by
  -- The recursion goes past an escape, so the induction is on the length.
  induction hn : s.length using Nat.strong_induction_on generalizing next s ps with
  | _ n ih =>
    subst hn
    have hescape : ∀ {next : Int} {b c d : UInt8} {rest : Bytes} {qs : List Piece},
        s = c :: d :: rest → parseFormatString [] next rest = .ok qs →
          Shortened s (.escaped b :: qs) := by
      intro next b c d rest qs hs hqs
      subst hs
      have hrest := ih rest.length (Nat.lt_add_of_pos_right two_pos) hqs rfl
      exact Shortened.escaped (length_written_le hqs hrest)
    cases s with
    | nil => exact .inl fun c hc => absurd hc List.not_mem_nil
    | cons c cs =>
      by_cases ho : c = openBrace
      · subst ho
        rw [parseFormatString_open] at h
        obtain ⟨⟨p, n, rest⟩, hfield, h⟩ := bind_eq_ok.mp h
        obtain ⟨rfl, rfl, rfl⟩ := parseReplacementField_no_args hfield
        obtain ⟨qs, hqs, rfl⟩ := map_eq_ok.mp h
        exact .inr (hescape rfl hqs)
      · by_cases hc : c = closeBrace
        · subst hc
          by_cases hd : cs.head? = some closeBrace
          · obtain ⟨rest, rfl⟩ := List.head?_eq_some_iff.mp hd
            rw [parseFormatString_close_close] at h
            obtain ⟨qs, hqs, rfl⟩ := map_eq_ok.mp h
            exact .inr (hescape rfl hqs)
          · rw [parseFormatString_close hd] at h
            cases h
        · rw [parseFormatString_text ho hc] at h
          obtain ⟨qs, hqs, rfl⟩ := map_eq_ok.mp h
          apply (ih cs.length (Nat.lt_succ_self _) hqs rfl).imp
          · exact fun hcs => List.forall_mem_cons.mpr ⟨⟨ho, hc⟩, hcs⟩
          · exact Shortened.text

theorem format_no_args_iff (s : Bytes) : format s [] = .ok s ↔ Braceless s := by
  constructor
  · intro h
    obtain ⟨ps, hps, hs⟩ := map_eq_ok.mp h
    apply (braceless_or_shortened hps).resolve_right
    intro hlt
    exact absurd (congrArg List.length hs) hlt.1.ne
  · intro h
    rw [format, parseFormatString_braceless [] 0 h]
    exact congrArg Except.ok (written_texts s)

theorem verbatim_iff (s : Bytes) : Verbatim s ↔ Braceless s := by
  constructor
  · rintro ⟨ps, hps, htexts⟩
    apply (braceless_or_shortened hps).resolve_right
    rintro ⟨-, b, hb⟩
    obtain ⟨c, hc⟩ := htexts _ hb
    cases hc
  · intro h
    exact ⟨_, parseFormatString_braceless [] 0 h, List.forall_mem_map.mpr fun c _ => ⟨c, rfl⟩⟩

end Warhead.Fmt
