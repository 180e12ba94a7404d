import WarheadFix.Common.ConfigText
import WarheadFix.Common.LoggerSinks

/-! The pattern of a sink on its way from the line of a file. The line is cut at a '#' before the
quotes are looked at, and its value is split at commas after they are gone. -/

namespace Warhead.Log
open Lib Config

def sinkLine (X L p : Bytes) : Bytes :=
  PREFIX_SINK ++ X ++ ascii " = 0," ++ L ++ ascii ",\"" ++ p ++ ascii "\""

/-- A pattern that can stand in quotes on a line; every printable text without '"' can. -/
def PatternText (p : Bytes) : Prop := p ≠ [] ∧ ∀ c ∈ p, c ≠ 34 ∧ c ≠ 10

def sinkOptions (L w : Bytes) : Bytes := 48 :: 44 :: (L ++ 44 :: w)

section Line
variable {X L p w : Bytes} {level : LogLevel}

theorem isDigit_of_logLevelOf (hL : logLevelOf L = some level) : ∀ c ∈ L, Fmt.isDigit c = true := by
  obtain ⟨n, hn, -⟩ := Option.bind_eq_some_iff.mp hL
  unfold stringTo at hn
  split_ifs at hn with hdigits
  exact List.all_eq_true.mp hdigits.2.1

theorem ne_of_isDigit {c d : UInt8} (hc : Fmt.isDigit c = true) (hd : Fmt.isDigit d = false) :
    c ≠ d := by
  rintro rfl
  exact Bool.false_ne_true (hd.symm.trans hc)

def unquoted (p : Bytes) : Bytes :=
  (((p ++ [34]).takeWhile (· != 35)).rdropWhile isSpace).filter (· != 34)

theorem unquoted_of_plain (hp : PatternText p) (hplain : 35 ∉ p) : unquoted p = p := by
  have hall : ∀ c ∈ p ++ [34], (c != 35) = true := by
    intro c hc
    rcases List.mem_append.mp hc with hc | hc
    · exact bne_iff_ne.mpr fun he => hplain (he ▸ hc)
    · rw [List.mem_singleton.mp hc]
      decide
  have hquotes : ∀ c ∈ p, (c != 34) = true := fun c hc => bne_iff_ne.mpr (hp.2 c hc).1
  have hlast : (p ++ [34]).rdropWhile isSpace = p ++ [34] := rdropWhile_append_cons rfl
  rw [unquoted, List.takeWhile_eq_self_iff.mpr hall, hlast, List.filter_append,
    List.filter_eq_self.mpr hquotes]
  simp

theorem length_unquoted_lt (hcomment : 35 ∈ p) : (unquoted p).length < p.length := by
  obtain ⟨before, after, rfl, hfirst⟩ := List.eq_append_cons_of_mem hcomment
  have hcut : (before ++ 35 :: after ++ [34]).takeWhile (· != 35) = before := by
    have hne : ∀ c ∈ before, c ≠ 35 := fun c hc he => hfirst (he ▸ hc)
    rw [List.append_assoc, takeWhile_front hne, List.cons_append,
      List.takeWhile_cons_of_neg (by decide), List.append_nil]
  -- neither trimming nor unquoting adds to what stands before the '#'
  calc (unquoted (before ++ 35 :: after)).length
      ≤ (before.rdropWhile isSpace).length := by
        rw [unquoted, hcut]
        exact List.length_filter_le _ _
    _ ≤ before.length := (List.rdropWhile_prefix _ _).length_le
    _ < (before ++ 35 :: after).length := by simp

theorem trim_cut (hdigits : ∀ c ∈ L, Fmt.isDigit c = true) (p : Bytes) :
    strip isSpace (([32, 48, 44] ++ L ++ [44, 34] ++ p).takeWhile (· != 35)) =
      [48, 44] ++ L ++ [44] ++ 34 :: (p.takeWhile (· != 35)).rdropWhile isSpace := by
  have hbefore : ∀ c ∈ [32, 48, 44] ++ L ++ [44, 34], c ≠ 35 := by
    intro c hc
    rcases List.mem_append.mp hc with hc | hc
    · rcases List.mem_append.mp hc with hc | hc
      · have hfirst : ∀ c ∈ ([32, 48, 44] : Bytes), c ≠ 35 := by simp
        exact hfirst c hc
      · exact ne_of_isDigit (hdigits c hc) rfl
    · have hopen : ∀ c ∈ ([44, 34] : Bytes), c ≠ 35 := by simp
      exact hopen c hc
  rw [takeWhile_front hbefore]
  set t := p.takeWhile (· != 35)
  have hfront : ([32, 48, 44] ++ L ++ [44, 34] ++ t).dropWhile isSpace =
      [48, 44] ++ L ++ [44] ++ 34 :: t := by
    rw [List.append_assoc, List.append_assoc]
    refine (List.dropWhile_cons_of_pos rfl).trans ((List.dropWhile_cons_of_neg ?_).trans ?_)
    · decide
    · simp
  rw [strip, hfront]
  exact rdropWhile_append_cons rfl

theorem parseLine_sinkLine (hX : KeyText (PREFIX_SINK ++ X)) (hL : logLevelOf L = some level) :
    parseLine (sinkLine X L p) = .option (PREFIX_SINK ++ X) (sinkOptions L (unquoted p)) := by
  have hdigits := isDigit_of_logLevelOf hL
  have hnone : Spaces [] := fun _ hc => absurd hc List.not_mem_nil
  have hgap : Spaces [32] := by
    intro c hc
    rw [List.mem_singleton.mp hc]
    decide
  have hline : sinkLine X L p =
      [] ++ (PREFIX_SINK ++ X) ++ [32] ++ 61 :: ([32, 48, 44] ++ L ++ [44, 34] ++ (p ++ [34])) := by
    have hequal : ascii " = 0," = [32] ++ 61 :: [32, 48, 44] := by decide +kernel
    have hcomma : ascii ",\"" = [44, 34] := by decide +kernel
    have hquote : ascii "\"" = [34] := by decide +kernel
    rw [sinkLine, hequal, hcomma, hquote]
    simp only [List.nil_append, List.append_assoc, List.cons_append]
  have hkept : ∀ c ∈ L, (c != 34) = true := fun c hc =>
    bne_iff_ne.mpr (ne_of_isDigit (hdigits c hc) rfl)
  rw [hline, parseLine_cut hnone hX hgap, trim_cut hdigits]
  simp [sinkOptions, unquoted, List.filter_append, List.filter_eq_self.mpr hkept]

end Line

/-! ## The option of a sink -/

section Option
variable {openFile : OpenFile} {logsDir X L w piece : Bytes} {pieces : List Bytes}
  {level : LogLevel} {sink : Sink}

theorem length_le_of_splitOn (h : w.splitOn comma = piece :: pieces) :
    piece.length ≤ w.length ∧ (comma ∈ w → piece.length < w.length) := by
  by_cases hcomma : comma ∈ w
  · obtain ⟨before, after, rfl, hfirst⟩ := List.eq_append_cons_of_mem hcomma
    rw [List.splitOn_append_cons_self_of_not_mem hfirst] at h
    obtain ⟨rfl, -⟩ := List.cons.inj h
    have hshort : before.length < (before ++ comma :: after).length := by simp
    exact ⟨hshort.le, fun _ => hshort⟩
  · rw [List.splitOn_eq_singleton hcomma] at h
    obtain ⟨rfl, -⟩ := List.cons.inj h
    exact ⟨le_rfl, fun h => absurd h hcomma⟩

theorem tokenize_sinkOptions (hL : logLevelOf L = some level)
    (hw : w.splitOn comma = piece :: pieces) :
    tokenize (sinkOptions L w) comma true = [48] :: L :: piece :: pieces := by
  have hlevel : comma ∉ L := fun hmem =>
    ne_of_isDigit (isDigit_of_logLevelOf hL comma hmem) rfl rfl
  have htype : comma ∉ ([48] : Bytes) := by decide
  have hsplit : (sinkOptions L w).splitOn comma = [48] :: L :: piece :: pieces := by
    change ([48] ++ comma :: (L ++ comma :: w)).splitOn comma = _
    rw [List.splitOn_append_cons_self_of_not_mem htype,
      List.splitOn_append_cons_self_of_not_mem hlevel, hw]
  rw [tokenize, hsplit]
  simp

theorem createSink_sinkOptions (hL : logLevelOf L = some level)
    (hw : w.splitOn comma = piece :: pieces) :
    createSink openFile logsDir X (sinkOptions L w) = .ok sink ↔
      pieces.length ≤ 4 ∧ piece ≠ [] ∧ sink = ⟨X, level, piece, .console⟩ := by
  have htokens := tokenize_sinkOptions hL hw
  have hlength : (tokenize (sinkOptions L w) comma true).length = pieces.length + 3 := by
    rw [htokens]
    rfl
  have hsome : sinkOptions L w ≠ [] := List.cons_ne_nil _ _
  by_cases hmany : pieces.length ≤ 4
  · have hposition : ∀ position < 3, getPositionOptions (sinkOptions L w) position =
        ([48] :: L :: piece :: pieces).getD position [] := by
      intro position hlt
      rw [getPositionOptions_eq, hlength, htokens, if_neg (by omega)]
    have htype : stringTo 8 (getPositionOptions (sinkOptions L w) 0) = some 0 := by
      rw [hposition 0 (by decide)]
      rfl
    have hcount : ¬ ((tokenize (sinkOptions L w) comma true).length < 3 ∨
        7 < (tokenize (sinkOptions L w) comma true).length) := by
      rw [hlength]
      omega
    have hlevel : getPositionOptions (sinkOptions L w) 1 = L := hposition 1 (by decide)
    have hpattern : getPositionOptions (sinkOptions L w) 2 = piece := hposition 2 (by decide)
    simp only [createSink, if_neg hsome, if_neg hcount, htype, hlevel, hL, hpattern]
    by_cases hpiece : piece = []
    · simp [hpiece]
    · simp [hpiece, hmany, eq_comm]
  · have hcount : (tokenize (sinkOptions L w) comma true).length < 3 ∨
        7 < (tokenize (sinkOptions L w) comma true).length := by
      rw [hlength]
      omega
    simp only [createSink, if_neg hsome, if_pos hcount]
    simp [hmany]

theorem createSinksFromConfig_iff {options : Options} {s : Loading} (hfree : X ∉ s.sinkList) :
    (∃ s', createSinksFromConfig openFile options s (PREFIX_SINK ++ X) = .ok s' ∧
      s'.sinkList.lookup X = some (some sink)) ↔
      createSink openFile s.logsDir X (getOption options (PREFIX_SINK ++ X)) = .ok sink := by
  constructor
  · rintro ⟨s', hs', hsink⟩
    obtain ⟨-, -, hlookup⟩ := createSinksFromConfig_lookup hfree hs'
    rw [hlookup X, if_pos rfl] at hsink
    obtain ⟨made, hmade, he⟩ := Option.map_eq_some_iff.mp hsink
    cases he
    cases hcreate : createSink openFile s.logsDir X (getOption options (PREFIX_SINK ++ X)) with
    | ok sink =>
      rw [hcreate] at hmade
      exact congrArg Except.ok (Option.some.inj hmade)
    | error failure =>
      rw [hcreate] at hmade
      cases hmade
  · intro hcreate
    refine ⟨{ s with sinkList := s.sinkList.insert X (some sink) }, ?_, AList.lookup_insert _⟩
    rw [createSinksFromConfig_of_ok hcreate]
    exact if_neg hfree

end Option

/-! ## From the file to the sink -/

def HasSinkLine (file : File) (X L p : Bytes) : Prop :=
  ∃ before after, lines file = before ++ sinkLine X L p :: after ∧
    ∀ line ∈ before, ∀ o ∈ (parseLine line).option?, o.1 ≠ PREFIX_SINK ++ X

section Loaded
variable {file : File} {X L p : Bytes} {level : LogLevel}

theorem isLoggingSystemOptions_sink : isLoggingSystemOptions (PREFIX_SINK ++ X) = true := by
  have hself : PREFIX_SINK ++ X ∈ (PREFIX_SINK ++ X).tails :=
    (List.mem_tails _ _).mpr (List.suffix_refl _)
  have hsink : PREFIX_SINK.isPrefixOf (PREFIX_SINK ++ X) = true :=
    List.isPrefixOf_iff_prefix.mpr (List.prefix_append _ _)
  have hcontains : contains (PREFIX_SINK ++ X) (ascii "Sink.") = true :=
    List.any_eq_true.mpr ⟨_, hself, hsink⟩
  rw [isLoggingSystemOptions, hcontains, Bool.true_or]

theorem firstOf_sinkLine (hX : KeyText (PREFIX_SINK ++ X)) (hL : logLevelOf L = some level)
    (hline : HasSinkLine file X L p) :
    Dict.firstOf (fileOptions file) (PREFIX_SINK ++ X) = some (sinkOptions L (unquoted p)) := by
  obtain ⟨before, after, hlines, hbefore⟩ := hline
  have hother : (before.filterMap fun line => (parseLine line).option?).find?
      (fun o => decide (o.1 = PREFIX_SINK ++ X)) = none := by
    rw [List.find?_eq_none]
    intro o ho
    obtain ⟨line, hmem, ho⟩ := List.mem_filterMap.mp ho
    rw [decide_eq_true_eq]
    exact hbefore line hmem o ho
  have hoption : (parseLine (sinkLine X L p)).option? =
      some (PREFIX_SINK ++ X, sinkOptions L (unquoted p)) :=
    congrArg Line.option? (parseLine_sinkLine hX hL)
  have hfront : (sinkLine X L p :: after).filterMap (fun line => (parseLine line).option?) =
      (PREFIX_SINK ++ X, sinkOptions L (unquoted p)) ::
        after.filterMap fun line => (parseLine line).option? := List.filterMap_cons_some hoption
  rw [Dict.firstOf, fileOptions, hlines, List.filterMap_append, List.find?_append, hother,
    Option.none_or, hfront]
  simp

/-- The pattern reaches the sink if and only if it has neither a '#' nor a comma. -/
theorem sink_pattern_iff (hash : HashOrder) (openFile : OpenFile) (file : File)
    (isOptional isReload : Bool) (c : State) (s : Loading) (X L p : Bytes) (level : LogLevel)
    (hX : KeyText (PREFIX_SINK ++ X)) (hL : logLevelOf L = some level) (hp : PatternText p)
    (hline : HasSinkLine file X L p)
    (hload : (loadFile hash (some file) isOptional isReload c).2 = true)
    (hfree : X ∉ s.sinkList) :
    (∃ s', createSinksFromConfig openFile
        (loadFile hash (some file) isOptional isReload c).1.configOptions s (PREFIX_SINK ++ X) =
          .ok s' ∧
      s'.sinkList.lookup X = some (some ⟨X, level, p, .console⟩)) ↔ 35 ∉ p ∧ comma ∉ p := by
  have hfirst := firstOf_sinkLine hX hL hline
  have hoption : getOption (loadFile hash (some file) isOptional isReload c).1.configOptions
      (PREFIX_SINK ++ X) = sinkOptions L (unquoted p) := by
    rw [getOption, lookup_loadFile_logging hload isLoggingSystemOptions_sink hfirst]
    rfl
  obtain ⟨piece, pieces, hw⟩ := List.exists_cons_of_ne_nil (List.splitOn_ne_nil comma (unquoted p))
  obtain ⟨hle, hlt⟩ := length_le_of_splitOn hw
  rw [createSinksFromConfig_iff hfree, hoption, createSink_sinkOptions hL hw]
  constructor
  · rintro ⟨-, -, hsink⟩
    have hpiece : p = piece := congrArg Sink.pattern hsink
    have hcomment : 35 ∉ p := by
      intro hmem
      have hless := hle.trans_lt (length_unquoted_lt hmem)
      rw [hpiece] at hless
      exact lt_irrefl _ hless
    refine ⟨hcomment, ?_⟩
    intro hmem
    rw [unquoted_of_plain hp hcomment] at hlt
    have hless := hlt hmem
    rw [hpiece] at hless
    exact lt_irrefl _ hless
  · rintro ⟨hcomment, hcomma⟩
    rw [unquoted_of_plain hp hcomment, List.splitOn_eq_singleton hcomma] at hw
    obtain ⟨rfl, rfl⟩ := List.cons.inj hw
    exact ⟨Nat.zero_le 4, hp.1, rfl⟩

theorem sink_pattern_iff_plain :
    (∃ s', createSinksFromConfig (fun _ => .ok ())
        (loadFile .listed (some ⟨sinkLine (ascii "Console") (ascii "2") (ascii "[%l] %v"), false⟩)
          false false ⟨∅, false, []⟩).1.configOptions unloaded (PREFIX_SINK ++ ascii "Console") =
            .ok s' ∧
      s'.sinkList.lookup (ascii "Console") =
        some (some ⟨ascii "Console", .info, ascii "[%l] %v", .console⟩)) ↔
      35 ∉ ascii "[%l] %v" ∧ comma ∉ ascii "[%l] %v" := by
  have hX : KeyText (PREFIX_SINK ++ ascii "Console") :=
    ⟨by decide +kernel, by decide +kernel, by decide +kernel, by decide +kernel⟩
  have hp : PatternText (ascii "[%l] %v") := ⟨by decide +kernel, by decide +kernel⟩
  have hline : HasSinkLine ⟨sinkLine (ascii "Console") (ascii "2") (ascii "[%l] %v"), false⟩
      (ascii "Console") (ascii "2") (ascii "[%l] %v") :=
    ⟨[], [], by decide +kernel, fun _ h => absurd h List.not_mem_nil⟩
  exact sink_pattern_iff .listed _ _ false false ⟨∅, false, []⟩ unloaded _ _ _ .info hX
    (by decide +kernel) hp hline (by decide +kernel) (AList.notMem_empty _)

end Loaded

def consolePattern (p : Bytes) : Option Bytes :=
  let file : File := ⟨sinkLine (ascii "Console") (ascii "2") p, false⟩
  let c := (loadFile .listed (some file) false false ⟨∅, false, []⟩).1
  (createSinksFromConfig (fun _ => .ok ()) c.configOptions unloaded
    (PREFIX_SINK ++ ascii "Console")).toOption.bind fun s =>
      (s.sinkList.lookup (ascii "Console")).join.map Sink.pattern

/-- The number of the source line is a comment, and what follows a comma is another option. -/
theorem sink_pattern_cut :
    (PatternText (ascii "%s:%# %v") ∧ consolePattern (ascii "%s:%# %v") = some (ascii "%s:%")) ∧
    (PatternText (ascii "%H,%M %v") ∧ consolePattern (ascii "%H,%M %v") = some (ascii "%H")) := by
  refine ⟨⟨⟨?_, ?_⟩, ?_⟩, ⟨?_, ?_⟩, ?_⟩ <;> decide +kernel

end Warhead.Log
