import WarheadFix.Common.Config

/-! What a loaded configuration says, option by option: a file that parses gives each option
the value of its first line, and the two files are two layers. -/

namespace Warhead.Config
open Lib

def Line.option? : Line → Option (Bytes × Bytes)
  | .option entry value => some (entry, value)
  | _ => none

def fileOptions (file : File) : List (Bytes × Bytes) :=
  (lines file).filterMap fun line => (parseLine line).option?

/-- The file opens, is read to its end, and its options, counted in a `uint32`, are not none. -/
def parses : Option File → Bool
  | none => false
  | some file =>
    !file.readError && ((fileOptions file).map Prod.fst).dedup.length % 2 ^ 32 != 0

def valueIn (file : Option File) (name : Bytes) : Option Bytes :=
  if parses file then file.bind fun f => Dict.firstOf (fileOptions f) name else none

variable {s : State} {k : Bytes}

/-! ## Staging -/

def Staging.Counted (s : Staging) : Prop := s.count = s.fileConfigs.keys.length % 2 ^ 32

theorem Staging.counted_empty : Staging.Counted ⟨0, 0, ∅, []⟩ := rfl

theorem stageLine_fileConfigs (s : Staging) (line : Bytes) :
    (stageLine s line).fileConfigs =
      (parseLine line).option?.elim s.fileConfigs s.fileConfigs.stage := by
  unfold stageLine
  cases parseLine line with
  | blank => rfl
  | skipped => rfl
  | option entry value =>
    simp only [Line.option?, Option.elim_some, Dict.stage]
    split_ifs <;> rfl

theorem Staging.Counted.stageLine {s : Staging} (h : s.Counted) (line : Bytes) :
    (Config.stageLine s line).Counted := by
  unfold Config.stageLine
  cases parseLine line with
  | blank => exact h
  | skipped => exact h
  | option entry value =>
    dsimp only
    split_ifs with hmem
    · exact h
    · have hlen : (s.fileConfigs.insert entry value).keys.length =
          s.fileConfigs.keys.length + 1 := by
        simp only [AList.keys, AList.entries_insert_of_notMem hmem, List.keys_cons,
          List.length_cons]
      unfold Staging.Counted at h ⊢
      rw [hlen, h, Nat.mod_add_mod]

theorem stageLine_foldl (ls : List Bytes) {s : Staging} (h : s.Counted) :
    (ls.foldl stageLine s).Counted ∧ (ls.foldl stageLine s).fileConfigs =
      (ls.filterMap fun line => (parseLine line).option?).foldl Dict.stage s.fileConfigs := by
  induction ls generalizing s with
  | nil => exact ⟨h, rfl⟩
  | cons l ls ih =>
    obtain ⟨hcounted, hfile⟩ := ih (h.stageLine l)
    refine ⟨hcounted, ?_⟩
    rw [List.foldl_cons, hfile, stageLine_fileConfigs, List.filterMap_cons]
    cases (parseLine l).option? <;> rfl

theorem stageLines_fileConfigs (file : File) :
    (stageLines (lines file)).fileConfigs = (fileOptions file).foldl Dict.stage ∅ :=
  (stageLine_foldl (lines file) Staging.counted_empty).2

theorem stageLines_count (file : File) : (stageLines (lines file)).count =
    ((fileOptions file).map Prod.fst).dedup.length % 2 ^ 32 := by
  rw [← Dict.length_stageAll, ← stageLines_fileConfigs]
  exact (stageLine_foldl (lines file) Staging.counted_empty).1

/-! ## One file -/

theorem addKey_configOptions (isOptional : Bool) (s : State) (e : Entry Bytes Bytes) :
    (addKey isOptional false s e).configOptions =
      s.configOptions.put (fun name => !isOptional || isLoggingSystemOptions name) e := by
  have hinsert : (s.configOptions.erase e.1).insert e.1 e.2 = s.configOptions.insert e.1 e.2 := by
    refine AList.ext ?_
    rw [AList.entries_insert, AList.entries_insert]
    exact congrArg _ (List.kerase_of_notMem_keys (List.notMem_keys_kerase e.1 s.configOptions.nodupKeys))
  unfold addKey Dict.put
  by_cases hmem : e.1 ∈ s.configOptions
  · simp [hmem, hinsert]
  · cases isOptional <;> cases hlog : isLoggingSystemOptions e.1 <;> simp [hmem, hlog, hinsert]

theorem foldl_addKey_configOptions (isOptional : Bool) (es : List (Entry Bytes Bytes)) (s : State) :
    (es.foldl (addKey isOptional false) s).configOptions =
      es.foldl (Dict.put fun name => !isOptional || isLoggingSystemOptions name)
        s.configOptions := by
  induction es generalizing s with
  | nil => rfl
  | cons e es ih => rw [List.foldl_cons, ih, addKey_configOptions, List.foldl_cons]

theorem loadFile_of_not_parses {file : Option File} (hp : parses file = false) (hash : HashOrder)
    (isOptional : Bool) (s : State) : (loadFile hash file isOptional false s).2 = false ∧
      (loadFile hash file isOptional false s).1.configOptions = s.configOptions := by
  cases file with
  | none => cases isOptional <;> exact ⟨rfl, rfl⟩
  | some file =>
    cases hr : file.readError with
    | true => simp [loadFile, parseFile, hr]
    | false =>
      have hzero : (stageLines (lines file)).count = 0 := by
        simpa [parses, hr, stageLines_count] using hp
      cases isOptional <;> simp [loadFile, parseFile, hr, hzero]

theorem loadFile_of_parses {file : File} (hp : parses (some file) = true) (hash : HashOrder)
    (isOptional : Bool) (s : State) : (loadFile hash (some file) isOptional false s).2 = true ∧
      ∀ k, (loadFile hash (some file) isOptional false s).1.configOptions.lookup k =
        if (valueIn (some file) k).isSome ∧
            (k ∈ s.configOptions ∨ (!isOptional || isLoggingSystemOptions k) = true)
        then valueIn (some file) k else s.configOptions.lookup k := by
  have hr : file.readError = false := by
    simp only [parses, Bool.and_eq_true, Bool.not_eq_true'] at hp
    exact hp.1
  have hcount : (stageLines (lines file)).count ≠ 0 := by
    simpa [parses, hr, stageLines_count] using hp
  have hval : ∀ k, (stageLines (lines file)).fileConfigs.lookup k = valueIn (some file) k := by
    intro k
    rw [stageLines_fileConfigs, Dict.lookup_stageAll]
    simp [valueIn, hp]
  refine ⟨by simp [loadFile, parseFile, hr, hcount], fun k => ?_⟩
  have hperm := hash.perm (stageLines (lines file)).fileConfigs.entries
  have hnodup : (hash.order (stageLines (lines file)).fileConfigs.entries).NodupKeys :=
    (List.perm_nodupKeys hperm).mpr (stageLines (lines file)).fileConfigs.nodupKeys
  have hlookup : (hash.order (stageLines (lines file)).fileConfigs.entries).dlookup k =
      valueIn (some file) k := by
    rw [List.perm_dlookup k hnodup hperm]
    exact hval k
  simp only [loadFile, parseFile, hr, Bool.false_eq_true, if_false, hcount]
  rw [foldl_addKey_configOptions, Dict.lookup_putAll hnodup, hlookup]

theorem loadFile_spec (hash : HashOrder) (file : Option File) (isOptional : Bool) (s : State) :
    (loadFile hash file isOptional false s).2 = parses file ∧
      ∀ k, (loadFile hash file isOptional false s).1.configOptions.lookup k =
        if (valueIn file k).isSome ∧
            (k ∈ s.configOptions ∨ (!isOptional || isLoggingSystemOptions k) = true)
        then valueIn file k else s.configOptions.lookup k := by
  cases hp : parses file with
  | false =>
    obtain ⟨hres, hsame⟩ := loadFile_of_not_parses hp hash isOptional s
    refine ⟨hres, fun k => ?_⟩
    have hnone : (valueIn file k).isSome = false := by simp [valueIn, hp]
    simp only [hnone, Bool.false_eq_true, false_and, if_false, hsame]
  | true =>
    cases file with
    | none => simp [parses] at hp
    | some file => exact loadFile_of_parses hp hash isOptional s

theorem loadFile_reload {hash : HashOrder} {file : Option File} {isOptional : Bool}
    (h : (loadFile hash file isOptional true s).2 = true) :
    loadFile hash file isOptional true s = loadFile hash file false false s := by
  have hadd : addKey isOptional true = addKey false false := by
    funext s e
    simp [addKey]
  cases file with
  | none => cases isOptional <;> cases h
  | some file =>
    unfold loadFile parseFile at h ⊢
    dsimp only at h ⊢
    rw [hadd] at h ⊢
    -- a file that fails is not loaded
    split_ifs at h ⊢
    rfl

theorem lookup_loadFile_logging {hash : HashOrder} {file : File} {isOptional isReload : Bool}
    {value : Bytes} (h : (loadFile hash (some file) isOptional isReload s).2 = true)
    (hk : isLoggingSystemOptions k = true)
    (hvalue : Dict.firstOf (fileOptions file) k = some value) :
    (loadFile hash (some file) isOptional isReload s).1.configOptions.lookup k = some value := by
  have hplain : ∀ isOptional, (loadFile hash (some file) isOptional false s).2 = true →
      (loadFile hash (some file) isOptional false s).1.configOptions.lookup k = some value := by
    intro isOptional h
    obtain ⟨hparses, hlookup⟩ := loadFile_spec hash (some file) isOptional s
    have hin : valueIn (some file) k = some value := by
      rw [valueIn, if_pos (hparses.symm.trans h), Option.bind_some, hvalue]
    rw [hlookup k, hin, if_pos ⟨rfl, .inr (by rw [hk, Bool.or_true])⟩]
  cases isReload with
  | false => exact hplain isOptional h
  | true =>
    have hsame := loadFile_reload h
    rw [hsame] at h ⊢
    exact hplain false h

theorem loadFile_failed {hash : HashOrder} {file : Option File} {isOptional isReload : Bool}
    (h : (loadFile hash file isOptional isReload s).2 = false) :
    (loadFile hash file isOptional isReload s).1.configOptions = s.configOptions := by
  cases file with
  | none => cases isOptional <;> rfl
  | some file =>
    unfold loadFile parseFile at h ⊢
    dsimp only at h ⊢
    split_ifs at h ⊢ with hread hempty hoptional
    · rfl
    · rfl
    · rfl

/-- A file that fails adds nothing to the options, wherever it fails; but the first file is read
into none, whatever there was. -/
theorem failed_load_adds_nothing (hash : HashOrder) (file : Option File)
    (isOptional isReload : Bool) (s : State) :
    ((loadAdditionalFile hash file isOptional isReload s).2 = false →
      (loadAdditionalFile hash file isOptional isReload s).1.configOptions = s.configOptions) ∧
    ((loadInitial hash file isReload s).2 = false →
      (loadInitial hash file isReload s).1.configOptions = ∅) :=
  ⟨loadFile_failed, loadFile_failed⟩

theorem failed_load_adds_nothing_readError :
    (loadAdditionalFile .listed (some ⟨ascii "Port = 2\nBindIP = ", true⟩) true false
      ⟨(∅ : Options).insert (ascii "Port") (ascii "1"), false, []⟩).1.configOptions =
        (∅ : Options).insert (ascii "Port") (ascii "1") :=
  (failed_load_adds_nothing .listed (some ⟨ascii "Port = 2\nBindIP = ", true⟩) true false
    ⟨(∅ : Options).insert (ascii "Port") (ascii "1"), false, []⟩).1 rfl

/-- A first file that is not there takes away what had been loaded. -/
theorem loadInitial_loses : ¬ ∀ (hash : HashOrder) (file : Option File) (isReload : Bool)
    (s : State), (loadInitial hash file isReload s).2 = false →
      (loadInitial hash file isReload s).1.configOptions = s.configOptions := by
  intro h
  have hsame := h .listed none false
    ⟨(∅ : Options).insert (ascii "Port") (ascii "1"), false, []⟩ rfl
  exact absurd (congrArg (AList.lookup (ascii "Port")) hsame) (by decide +kernel)

/-! ## Two files -/

def layered (dist conf : Option File) (name : Bytes) : Option Bytes :=
  if (valueIn conf name).isSome ∧ ((valueIn dist name).isSome ∨ isLoggingSystemOptions name = true)
  then valueIn conf name
  else valueIn dist name

theorem loadAppConfigs_spec (hashDist hashConf : HashOrder) (dist conf : Option File) (s : State) :
    (loadAppConfigs hashDist hashConf dist conf s).2 = parses dist ∧
      (parses dist = true → ∀ k,
        (loadAppConfigs hashDist hashConf dist conf s).1.configOptions.lookup k =
          layered dist conf k) := by
  obtain ⟨hd, hlook⟩ := loadFile_spec hashDist dist false { s with configOptions := ∅ }
  rcases hload : loadFile hashDist dist false false { s with configOptions := ∅ } with ⟨s₁, b⟩
  rw [hload] at hd hlook
  cases b with
  | false =>
    refine ⟨?_, fun hp => absurd (hd.trans hp) Bool.false_ne_true⟩
    rw [← hd]
    simp only [loadAppConfigs, loadInitial, hload]
  | true =>
    have hdist : ∀ k, s₁.configOptions.lookup k = valueIn dist k := by
      intro k
      have hk := hlook k
      cases hv : valueIn dist k with
      | none => simpa [hv] using hk
      | some v => simpa [hv] using hk
    obtain ⟨-, hover⟩ := loadFile_spec hashConf conf true s₁
    have hconf : ∀ k, (loadFile hashConf conf true false s₁).1.configOptions.lookup k =
        layered dist conf k := by
      intro k
      rw [hover k, layered, hdist k, ← hdist k]
      simp only [AList.lookup_isSome, Bool.not_true, Bool.false_or]
    refine ⟨?_, fun _ k => ?_⟩
    · rw [← hd]
      simp only [loadAppConfigs, loadInitial, hload]
      split <;> rfl
    · rw [← hconf k]
      simp only [loadAppConfigs, loadInitial, loadAdditionalFile, hload]
      split
      · rename_i h
        rw [h]
      · rename_i h
        rw [h]

theorem valueIn_eq_none {file : Option File}
    (h : ∀ f, file = some f → f.readError = true ∨ fileOptions f = []) (k : Bytes) :
    valueIn file k = none := by
  cases file with
  | none => rfl
  | some f =>
    rcases h f rfl with hr | hempty
    · simp [valueIn, parses, hr]
    · simp [valueIn, parses, hempty]

theorem layered_of_conf_none {dist conf : Option File} (h : ∀ k, valueIn conf k = none)
    (k : Bytes) : layered dist conf k = valueIn dist k := by
  unfold layered
  rw [h k, if_neg (by simp)]

/-- After a successful load every option is as the two files say: the .conf value, if the
.conf parses and defines it and the .dist defines it or its name is of the logging system,
and else the .dist value. A .conf that is missing, unreadable or empty changes nothing, and
no other walk through the staged options and no earlier state leads to another result. -/
theorem loadAppConfigs_layers {hashDist hashConf : HashOrder} {dist conf : Option File}
    {s t : State} (h : loadAppConfigs hashDist hashConf dist conf s = (t, true)) :
    (∀ k, t.configOptions.lookup k =
      if (valueIn conf k).isSome ∧ ((valueIn dist k).isSome ∨ isLoggingSystemOptions k = true)
      then valueIn conf k
      else valueIn dist k) ∧
    ((∀ f, conf = some f → f.readError = true ∨ fileOptions f = []) →
      ∀ k, t.configOptions.lookup k = valueIn dist k) ∧
    ∀ hashDist' hashConf' s', ∃ t', loadAppConfigs hashDist' hashConf' dist conf s' = (t', true) ∧
      ∀ k, t'.configOptions.lookup k = t.configOptions.lookup k := by
  obtain ⟨hres, hlook⟩ := loadAppConfigs_spec hashDist hashConf dist conf s
  rw [h] at hres hlook
  have hlayers := hlook hres.symm
  refine ⟨hlayers, fun hconf k => ?_, fun hashDist' hashConf' s' => ?_⟩
  · rw [hlayers k, layered_of_conf_none (valueIn_eq_none hconf)]
  · obtain ⟨hres', hlook'⟩ := loadAppConfigs_spec hashDist' hashConf' dist conf s'
    refine ⟨_, Prod.ext rfl (hres'.trans hres.symm), fun k => ?_⟩
    rw [hlook' hres.symm k, hlayers k]

def distExample : File := ⟨ascii "# dist\nLogsDir = \"\"\nPort = 1\n", false⟩

def confExample : File := ⟨ascii "Port = 2\nSink.Console = 3\nPort = 4\nOther = 5", false⟩

theorem loadAppConfigs_layers_example : ∃ t,
    loadAppConfigs .listed .listed (some distExample) (some confExample) ⟨∅, false, []⟩ =
      (t, true) ∧
    t.configOptions.lookup (ascii "Port") = some (ascii "2") ∧
    t.configOptions.lookup (ascii "Sink.Console") = some (ascii "3") ∧
    t.configOptions.lookup (ascii "Other") = none := by
  have hload : loadAppConfigs .listed .listed (some distExample) (some confExample)
      ⟨∅, false, []⟩ = (_, true) := Prod.ext rfl (by decide +kernel)
  have hall := (loadAppConfigs_layers hload).1
  refine ⟨_, hload, (hall _).trans ?_, (hall _).trans ?_, (hall _).trans ?_⟩ <;> decide +kernel

end Warhead.Config
