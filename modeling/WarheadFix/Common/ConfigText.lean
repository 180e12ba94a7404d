import WarheadFix.Common.ConfigLayers
import WarheadFix.Lib.Strip

/-! Configuration files as they are written. A line `key = "value"` with white space around its
parts is read as the option, lines without one are passed over, and the file is its options. -/

namespace Warhead.Config
open Lib

def Spaces (ws : Bytes) : Prop := ∀ c ∈ ws, isSpace c = true ∧ c ≠ 10

structure KeyText (key : Bytes) : Prop where
  nonempty : key ≠ []
  first : ∀ c ∈ key.head?, isSpace c = false ∧ c ≠ 91
  last : ∀ c ∈ key.getLast?, isSpace c = false
  plain : ∀ c ∈ key, c ≠ 61 ∧ c ≠ 35 ∧ c ≠ 10

def ValueText (value : Bytes) : Prop := ∀ c ∈ value, c ≠ 35 ∧ c ≠ 34 ∧ c ≠ 10

structure OptionLine where
  key : Bytes
  value : Bytes
  indent : Bytes
  beforeEqual : Bytes
  afterEqual : Bytes
  after : Bytes
  keyText : KeyText key
  valueText : ValueText value
  spaces : Spaces indent ∧ Spaces beforeEqual ∧ Spaces afterEqual ∧ Spaces after

def OptionLine.text (l : OptionLine) : Bytes :=
  l.indent ++ l.key ++ l.beforeEqual ++ 61 :: (l.afterEqual ++ 34 :: l.value ++ 34 :: l.after)

structure IdleLine where
  indent : Bytes
  rest : Bytes
  spaces : Spaces indent
  idle : rest = [] ∨ rest.head? = some 35 ∨ rest.head? = some 91
  oneLine : (10 : UInt8) ∉ rest

inductive TextLine where
  | option (l : OptionLine)
  | idle (l : IdleLine)

def TextLine.text : TextLine → Bytes
  | option l => l.text
  | idle l => l.indent ++ l.rest

def TextLine.pair? : TextLine → Option (Bytes × Bytes)
  | option l => some (l.key, l.value)
  | idle _ => none

def pairs (ls : List TextLine) : List (Bytes × Bytes) := ls.filterMap TextLine.pair?

def fileText (ls : List TextLine) (finalNewline : Bool) : Bytes :=
  [10].intercalate (ls.map TextLine.text) ++ if finalNewline then [10] else []

/-! ## One line -/

section Line
variable {key indent gap rest ws : Bytes} {c : UInt8}

theorem Spaces.isSpace (h : Spaces ws) : ∀ c ∈ ws, Config.isSpace c = true := fun c hc => (h c hc).1

theorem Spaces.ne {d : UInt8} (h : Spaces ws) (hd : Config.isSpace d = false) : ∀ c ∈ ws, c ≠ d := by
  rintro c hc rfl
  exact Bool.false_ne_true (hd.symm.trans (h c hc).1)

theorem trim_key (h : KeyText key) (hgap : Spaces gap) : strip Config.isSpace (key ++ gap) = key :=
  (strip_append hgap.isSpace).trans (strip_eq_self (fun c hc => (h.first c hc).1) h.last)

theorem takeWhile_front {d : UInt8} {before after : Bytes} (h : ∀ c ∈ before, c ≠ d) :
    (before ++ after).takeWhile (· != d) = before ++ after.takeWhile (· != d) :=
  List.takeWhile_append_of_pos fun c hc => bne_iff_ne.mpr (h c hc)

theorem dropWhile_front {d : UInt8} {before after : Bytes} (h : ∀ c ∈ before, c ≠ d) :
    (before ++ after).dropWhile (· != d) = after.dropWhile (· != d) :=
  List.dropWhile_append_of_pos fun c hc => bne_iff_ne.mpr (h c hc)

theorem trim_line (hindent : Spaces indent) (hkey : KeyText key) :
    strip Config.isSpace (indent ++ key ++ gap ++ 61 :: rest) =
      key ++ gap ++ 61 :: rest.rdropWhile Config.isSpace := by
  obtain ⟨c, cs, rfl⟩ := List.exists_cons_of_ne_nil hkey.nonempty
  have hspace : ¬ Config.isSpace c = true := by
    rw [(hkey.first c rfl).1]
    exact Bool.false_ne_true
  have hfront : (indent ++ (c :: cs ++ gap ++ 61 :: rest)).dropWhile Config.isSpace =
      c :: cs ++ gap ++ 61 :: rest := by
    rw [List.dropWhile_append_of_pos hindent.isSpace]
    exact List.dropWhile_cons_of_neg hspace
  rw [strip, List.append_assoc, List.append_assoc, ← List.append_assoc (c :: cs), hfront]
  exact rdropWhile_append_cons rfl

theorem parseLine_cut (hindent : Spaces indent) (hkey : KeyText key) (hgap : Spaces gap) :
    parseLine (indent ++ key ++ gap ++ 61 :: rest) =
      .option key ((strip Config.isSpace (rest.takeWhile (· != 35))).filter (· != 34)) := by
  have hequal : ∀ c ∈ key ++ gap, c ≠ 61 := by
    intro c hc
    rcases List.mem_append.mp hc with hc | hc
    · exact (hkey.plain c hc).1
    · exact hgap.ne rfl c hc
  have hcomment : ∀ c ∈ key ++ gap, c ≠ 35 := by
    intro c hc
    rcases List.mem_append.mp hc with hc | hc
    · exact (hkey.plain c hc).2.1
    · exact hgap.ne rfl c hc
  set value := (rest.rdropWhile Config.isSpace).takeWhile (· != 35) with hvalue
  have hcut : (key ++ gap ++ 61 :: rest.rdropWhile Config.isSpace).takeWhile (· != 35) =
      key ++ gap ++ 61 :: value := by
    rw [takeWhile_front hcomment, List.takeWhile_cons_of_pos rfl]
  have hentry : (key ++ gap ++ 61 :: value).takeWhile (· != 61) = key ++ gap := by
    rw [takeWhile_front hequal, List.takeWhile_cons_of_neg (by decide), List.append_nil]
  have htail : ((key ++ gap ++ 61 :: value).dropWhile (· != 61)).tail = value := by
    rw [dropWhile_front hequal, List.dropWhile_cons_of_neg (by decide), List.tail_cons]
  -- white space at the end of the line may go before or after the comment
  have htrim : strip Config.isSpace value = strip Config.isSpace (rest.takeWhile (· != 35)) := by
    apply strip_takeWhile_rdropWhile
    intro c hc
    rw [bne_eq_false_iff_eq.mp hc]
    rfl
  have hmem : (61 : UInt8) ∈ key ++ gap ++ 61 :: value :=
    List.mem_append_right _ List.mem_cons_self
  obtain ⟨c, cs, hcons⟩ := List.exists_cons_of_ne_nil hkey.nonempty
  have hfirst : ¬ (c = 35 ∨ c = 91) := by
    rw [hcons] at hkey
    exact not_or.mpr ⟨(hkey.plain c List.mem_cons_self).2.1, (hkey.first c rfl).2⟩
  have hline : strip Config.isSpace (indent ++ key ++ gap ++ 61 :: rest) =
      c :: (cs ++ gap ++ 61 :: rest.rdropWhile Config.isSpace) := by
    rw [trim_line hindent hkey, hcons]
    rfl
  have hsame : c :: (cs ++ gap ++ 61 :: rest.rdropWhile Config.isSpace) =
      key ++ gap ++ 61 :: rest.rdropWhile Config.isSpace := by
    rw [hcons]
    rfl
  simp only [parseLine, hline, hfirst, if_false]
  rw [hsame, hcut, if_pos hmem, hentry, htail, htrim, trim_key hkey hgap]

theorem parseLine_option (l : OptionLine) : parseLine l.text = .option l.key l.value := by
  obtain ⟨hindent, hbefore, hafter, hend⟩ := l.spaces
  set quoted := 34 :: l.value ++ [34] with hquoted
  have hrest : l.afterEqual ++ 34 :: l.value ++ 34 :: l.after = l.afterEqual ++ quoted ++ l.after := by
    simp [hquoted]
  have hplain : ∀ c ∈ l.afterEqual ++ quoted ++ l.after, (c != 35) = true := by
    intro c hc
    rw [bne_iff_ne]
    rcases List.mem_append.mp hc with hc | hc
    · rcases List.mem_append.mp hc with hc | hc
      · exact hafter.ne rfl c hc
      · rcases List.mem_cons.mp hc with rfl | hc
        · decide
        · rcases List.mem_append.mp hc with hc | hc
          · exact (l.valueText c hc).1
          · rw [List.mem_singleton.mp hc]
            decide
    · exact hend.ne rfl c hc
  have htrim : strip Config.isSpace (l.afterEqual ++ quoted ++ l.after) = quoted := by
    rw [List.append_assoc]
    refine (append_strip hafter.isSpace).trans ((strip_append hend.isSpace).trans ?_)
    apply strip_eq_self
    · intro c hc
      rw [← Option.some.inj hc]
      rfl
    · intro c hc
      rw [hquoted, List.getLast?_append, List.getLast?_singleton] at hc
      rw [← Option.some.inj hc]
      rfl
  have hvalue : quoted.filter (· != 34) = l.value := by
    have hkeep : ∀ c ∈ l.value, (c != 34) = true := fun c hc =>
      bne_iff_ne.mpr (l.valueText c hc).2.1
    rw [hquoted, List.filter_append, List.filter_cons_of_neg (by decide),
      List.filter_eq_self.mpr hkeep]
    simp
  rw [OptionLine.text, parseLine_cut hindent l.keyText hbefore, hrest,
    List.takeWhile_eq_self_iff.mpr hplain, htrim, hvalue]

theorem parseLine_idle (l : IdleLine) : parseLine (l.indent ++ l.rest) = .blank := by
  have htrim : strip Config.isSpace (l.indent ++ l.rest) = strip Config.isSpace l.rest :=
    append_strip l.spaces.isSpace
  rcases hrest : l.rest with _ | ⟨c, cs⟩
  · rw [hrest] at htrim
    rw [parseLine, htrim]
    rfl
  · have hc : c = 35 ∨ c = 91 := by
      have hidle := l.idle
      rw [hrest] at hidle
      simpa using hidle
    have hspace : Config.isSpace c = false := by
      rcases hc with rfl | rfl <;> rfl
    have hfront : (c :: cs).dropWhile Config.isSpace = c :: cs :=
      List.dropWhile_cons_of_neg (ne_true_of_eq_false hspace)
    have hline : strip Config.isSpace (c :: cs) = c :: cs.rdropWhile Config.isSpace := by
      rw [strip, hfront]
      exact rdropWhile_append_cons (r := []) hspace
    rw [hrest, hline] at htrim
    simp only [parseLine, htrim, hc, if_true]

theorem parseLine_text (l : TextLine) : (parseLine l.text).option? = l.pair? := by
  cases l with
  | option l => exact congrArg Line.option? (parseLine_option l)
  | idle l => exact congrArg Line.option? (parseLine_idle l)

theorem newline_not_mem_text (l : TextLine) : (10 : UInt8) ∉ l.text := by
  have hspaces : ∀ {ws : Bytes}, Spaces ws → (10 : UInt8) ∉ ws := fun hws hmem =>
    (hws 10 hmem).2 rfl
  cases l with
  | option l =>
    obtain ⟨hindent, hbefore, hafter, hend⟩ := l.spaces
    have hkey : (10 : UInt8) ∉ l.key := fun hmem => (l.keyText.plain 10 hmem).2.2 rfl
    have hvalue : (10 : UInt8) ∉ l.value := fun hmem => (l.valueText 10 hmem).2.2 rfl
    simp [TextLine.text, OptionLine.text, hspaces hindent, hspaces hbefore, hspaces hafter,
      hspaces hend, hkey, hvalue]
  | idle l => simp [TextLine.text, hspaces l.spaces, l.oneLine]

end Line

/-! ## One file -/

section File
variable {ls : List TextLine} {finalNewline : Bool}

theorem lines_fileText : lines ⟨fileText ls finalNewline, false⟩ =
    ([10].intercalate (ls.map TextLine.text)).splitOn 10 ++
      if finalNewline then [[]] else [] := by
  cases finalNewline with
  | false => simp [lines, fileText]
  | true => exact List.splitOn_append_cons_self _ []

theorem fileOptions_fileText : fileOptions ⟨fileText ls finalNewline, false⟩ = pairs ls := by
  have hblank : (parseLine []).option? = none := rfl
  have hlast : (if finalNewline then [[]] else []).filterMap
      (fun line => (parseLine line).option?) = [] := by
    cases finalNewline <;> rfl
  rw [fileOptions, lines_fileText, List.filterMap_append, hlast, List.append_nil]
  by_cases hls : ls = []
  · rw [hls]
    rfl
  · have hsplit : ([10].intercalate (ls.map TextLine.text)).splitOn 10 = ls.map TextLine.text := by
      apply List.splitOn_intercalate
      · intro text htext
        obtain ⟨l, -, rfl⟩ := List.mem_map.mp htext
        exact newline_not_mem_text l
      · exact fun hnil => hls (List.map_eq_nil_iff.mp hnil)
    rw [hsplit, List.filterMap_map, pairs]
    exact List.filterMap_congr fun l _ => parseLine_text l

theorem loadInitial_reload (hash : HashOrder) (file : Option File) (isReload : Bool) (s : State) :
    loadInitial hash file isReload s = loadInitial hash file false s := rfl

theorem parses_fileText : parses (some ⟨fileText ls finalNewline, false⟩) = true ↔
    ((pairs ls).map Prod.fst).dedup.length % 2 ^ 32 ≠ 0 := by
  simp [parses, fileOptions_fileText]

theorem loadInitial_fileText (hash : HashOrder) (isReload : Bool) (s : State) :
    (loadInitial hash (some ⟨fileText ls finalNewline, false⟩) isReload s).2 = true ↔
      ((pairs ls).map Prod.fst).dedup.length % 2 ^ 32 ≠ 0 := by
  rw [loadInitial_reload, loadInitial, (loadFile_spec hash _ false _).1, parses_fileText]

/-- A written file is loaded as its pairs, each key with its first value, unless the number of
different keys is counted as none. -/
theorem config_text_iff (hash : HashOrder) (ls : List TextLine) (finalNewline isReload : Bool)
    (s : State) :
    ((loadInitial hash (some ⟨fileText ls finalNewline, false⟩) isReload s).2 = true ∧
      ∀ k, (loadInitial hash (some ⟨fileText ls finalNewline, false⟩)
        isReload s).1.configOptions.lookup k = Dict.firstOf (pairs ls) k) ↔
      ((pairs ls).map Prod.fst).dedup.length % 2 ^ 32 ≠ 0 := by
  rw [loadInitial_fileText]
  refine ⟨And.left, fun hcount => ⟨hcount, fun k => ?_⟩⟩
  obtain ⟨-, hlookup⟩ := loadFile_spec hash (some ⟨fileText ls finalNewline, false⟩) false
    { s with configOptions := ∅ }
  have hvalue : valueIn (some ⟨fileText ls finalNewline, false⟩) k =
      Dict.firstOf (pairs ls) k := by
    rw [valueIn, if_pos (parses_fileText.mpr hcount), Option.bind_some, fileOptions_fileText]
  rw [loadInitial_reload, loadInitial, hlookup k, hvalue]
  cases hfirst : Dict.firstOf (pairs ls) k with
  | none => exact AList.lookup_empty k
  | some value => simp

/-! ## A file of as many keys as a `uint32` has values -/

def binaryKey (i : Nat) : Bytes := (List.range 32).map fun j => if i.testBit j then 98 else 97

theorem binaryKey_mem {i : Nat} {c : UInt8} (h : c ∈ binaryKey i) : c = 97 ∨ c = 98 := by
  obtain ⟨j, -, rfl⟩ := List.mem_map.mp h
  split_ifs
  · exact .inr rfl
  · exact .inl rfl

theorem binaryKey_keyText (i : Nat) : KeyText (binaryKey i) where
  nonempty h := by cases List.map_eq_nil_iff.mp h
  first c hc := by
    rcases binaryKey_mem (List.mem_of_mem_head? hc) with rfl | rfl <;> decide
  last c hc := by
    rcases binaryKey_mem (List.mem_of_mem_getLast? hc) with rfl | rfl <;> decide
  plain c hc := by
    rcases binaryKey_mem hc with rfl | rfl <;> decide

theorem binaryKey_injective {i j : Nat} (hi : i < 2 ^ 32) (hj : j < 2 ^ 32)
    (h : binaryKey i = binaryKey j) : i = j := by
  apply Nat.eq_of_testBit_eq
  intro n
  by_cases hn : n < 32
  · have hbit := List.map_inj_left.mp h n (List.mem_range.mpr hn)
    cases hin : i.testBit n <;> cases hjn : j.testBit n <;> simp_all
  · have hle : 2 ^ 32 ≤ 2 ^ n := Nat.pow_le_pow_right Nat.two_pos (Nat.not_lt.mp hn)
    rw [Nat.testBit_lt_two_pow (hi.trans_le hle), Nat.testBit_lt_two_pow (hj.trans_le hle)]

def binaryLine (i : Nat) : TextLine :=
  .option {
    key := binaryKey i
    value := []
    indent := []
    beforeEqual := []
    afterEqual := []
    after := []
    keyText := binaryKey_keyText i
    valueText := fun _ hc => absurd hc List.not_mem_nil
    spaces := ⟨fun _ hc => absurd hc List.not_mem_nil, fun _ hc => absurd hc List.not_mem_nil,
      fun _ hc => absurd hc List.not_mem_nil, fun _ hc => absurd hc List.not_mem_nil⟩ }

theorem keys_binaryLines (n : Nat) :
    (pairs ((List.range n).map binaryLine)).map Prod.fst = (List.range n).map binaryKey := by
  rw [pairs, List.filterMap_map]
  change ((List.range n).filterMap fun i => some (binaryKey i, [])).map Prod.fst = _
  rw [List.filterMap_eq_map', List.map_map]
  rfl

/-- All keys are different, and their number is counted as none. -/
theorem config_text_uncounted : ¬ ∀ (hash : HashOrder) (ls : List TextLine)
    (finalNewline isReload : Bool) (s : State), pairs ls ≠ [] →
      (loadInitial hash (some ⟨fileText ls finalNewline, false⟩) isReload s).2 = true := by
  intro h
  have hnodup : ((List.range (2 ^ 32)).map binaryKey).Nodup := by
    apply List.nodup_range.map_on
    intro i hi j hj hij
    exact binaryKey_injective (List.mem_range.mp hi) (List.mem_range.mp hj) hij
  have hcount : ((pairs ((List.range (2 ^ 32)).map binaryLine)).map Prod.fst).dedup.length =
      2 ^ 32 := by
    rw [keys_binaryLines, hnodup.dedup, List.length_map, List.length_range]
  have hne : pairs ((List.range (2 ^ 32)).map binaryLine) ≠ [] := by
    intro hnil
    rw [hnil] at hcount
    cases hcount
  have hload := h .listed ((List.range (2 ^ 32)).map binaryLine) false false ⟨∅, false, []⟩ hne
  rw [loadInitial_fileText, hcount] at hload
  exact hload (Nat.mod_self _)

end File
end Warhead.Config
