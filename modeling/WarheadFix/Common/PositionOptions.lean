import WarheadFix.Common.Tokenize

/-! The option at a position. The number of the tokens is cut to a byte before it is compared, by
the callers it is not. Without a default it is the closed form that the loading of the log uses
(`getPositionOptions_options`). -/

namespace Warhead.PositionOptions
open Lib Log Tokenize
variable {options default : Bytes} {position : UInt8} {tokens : List Bytes}

def tokenAt (tokens : List Bytes) (position : Nat) : Outcome OutOfRange Bytes :=
  match tokens[position]? with
  | some token => .ok token
  | none => .error (.thrown {})

def getPositionOptions (options : Bytes) (position : UInt8) (default : Bytes := []) :
    Outcome OutOfRange Bytes := do
  let tokens ← Tokenize.tokenize options comma true
  -- `position + 1u` is not cut
  if (UInt8.ofNat tokens.length).toNat < position.toNat + 1 then return default
  tokenAt tokens position.toNat

theorem tokenAt_of_lt {place : Nat} (h : place < tokens.length) :
    tokenAt tokens place = .ok (tokens.getD place default) := by
  rw [tokenAt, List.getElem?_eq_getElem h, List.getD_eq_getElem _ _ h]

theorem getPositionOptions_eq (h : Tokenize.tokenize options comma true = .ok tokens) :
    getPositionOptions options position default =
      .ok (if position.toNat < tokens.length % 2 ^ 8 then tokens.getD position.toNat default
        else default) := by
  have hcut : (UInt8.ofNat tokens.length).toNat = tokens.length % 2 ^ 8 := UInt8.toNat_ofNat'
  rw [getPositionOptions, bind_of_ok h, hcut]
  by_cases hlt : position.toNat < tokens.length % 2 ^ 8
  · have hplace : position.toNat < tokens.length := hlt.trans_le (Nat.mod_le _ _)
    rw [if_neg (by omega), if_pos hlt, tokenAt_of_lt hplace]
  · rw [if_pos (by omega), if_neg hlt]
    rfl

theorem getPositionOptions_options (options : Bytes) (position : UInt8) :
    getPositionOptions options position = .ok (Log.getPositionOptions options position.toNat) := by
  rw [getPositionOptions_eq (tokenize_options options comma true), Log.getPositionOptions]
  congr 1
  split_ifs <;> first | rfl | omega

theorem getPositionOptions_eq_iff (h : Tokenize.tokenize options comma true = .ok tokens) :
    getPositionOptions options position default = .ok (tokens.getD position.toNat default) ↔
      tokens.length ≤ position.toNat ∨ position.toNat < tokens.length % 2 ^ 8 ∨
        tokens[position.toNat]? = some default := by
  have hfound : tokens[position.toNat]? = some default ↔
      position.toNat < tokens.length ∧ tokens.getD position.toNat default = default := by
    rw [List.getElem?_eq_some_iff]
    constructor
    · rintro ⟨hlt, htoken⟩
      exact ⟨hlt, (List.getD_eq_getElem _ _ hlt).trans htoken⟩
    · rintro ⟨hlt, htoken⟩
      exact ⟨hlt, (List.getD_eq_getElem _ _ hlt).symm.trans htoken⟩
  rw [getPositionOptions_eq h, hfound, Except.ok.injEq]
  by_cases hlt : position.toNat < tokens.length % 2 ^ 8
  · rw [if_pos hlt]
    exact iff_of_true rfl (Or.inr (Or.inl hlt))
  · rw [if_neg hlt]
    by_cases hlength : tokens.length ≤ position.toNat
    · rw [List.getD_eq_default _ _ hlength]
      exact iff_of_true rfl (Or.inl hlength)
    · constructor
      · intro hdefault
        exact Or.inr (Or.inr ⟨Nat.not_le.mp hlength, hdefault.symm⟩)
      · rintro (hle | hcut | ⟨-, hdefault⟩)
        · exact absurd hle hlength
        · exact absurd hcut hlt
        · exact hdefault.symm

/-! ## The options of a logger -/

def configured (loggerName options : Bytes) (tokens : List Bytes) :
    Except Message (LogLevel × Bytes) :=
  if options = [] then .error (message
    "Log::CreateLoggerFromConfig: Missing config option Logger.\x7b\x7d" [loggerName])
  else
    match tokens with
    | level :: sinksName :: _ =>
      match logLevelOf level with
      | none => .error (message
          "Log::CreateLoggerFromConfig: Wrong Log Level for logger \x7b\x7d" [loggerName])
      | some level => .ok (level, sinksName)
    | _ => .error (message
        "Log::CreateLoggerFromConfig: Bad config options for Logger (\x7b\x7d)" [loggerName])

/-- When the number of the tokens, cut to a byte, leaves the level and the sinks to be found. -/
def Found : List Bytes → Prop
  | level :: sinksName :: rest =>
    2 ≤ (rest.length + 2) % 2 ^ 8 ∨ logLevelOf level = none ∨
      ((rest.length + 2) % 2 ^ 8 = 1 ∧ sinksName = [])
  | _ => True

theorem loggerOptions_of_tokens (loggerName : Bytes) {level sinksName : Bytes} {rest : List Bytes}
    (hne : options ≠ []) (h : Log.tokenize options comma true = level :: sinksName :: rest) :
    loggerOptions loggerName options =
      match logLevelOf (if (rest.length + 2) % 2 ^ 8 < 1 then [] else level) with
      | none => .error (message
          "Log::CreateLoggerFromConfig: Wrong Log Level for logger \x7b\x7d" [loggerName])
      | some level => .ok (level, if (rest.length + 2) % 2 ^ 8 < 2 then [] else sinksName) := by
  have hlength : ¬ (level :: sinksName :: rest).length < 2 := by
    rw [List.length_cons, List.length_cons]
    omega
  rw [loggerOptions, if_neg hne, h, if_neg hlength, Log.getPositionOptions,
    Log.getPositionOptions, h]
  rfl

theorem logLevelOf_nil : logLevelOf [] = none := rfl

theorem loggerOptions_eq_configured_iff (loggerName : Bytes) :
    loggerOptions loggerName options =
      configured loggerName options (Log.tokenize options comma true) ↔
        Found (Log.tokenize options comma true) := by
  by_cases hempty : options = []
  · rw [hempty]
    exact iff_of_true rfl trivial
  rcases htokens : Log.tokenize options comma true with _ | ⟨level, _ | ⟨sinksName, rest⟩⟩
  · rw [loggerOptions, if_neg hempty, htokens]
    simp [configured, Found, hempty]
  · rw [loggerOptions, if_neg hempty, htokens]
    simp [configured, Found, hempty]
  · rw [loggerOptions_of_tokens loggerName hempty htokens, configured, if_neg hempty, Found]
    -- what is left of the number decides whether the level, or the sinks alone, are lost
    rcases (rest.length + 2) % 2 ^ 8 with _ | _ | count
    · rw [if_pos Nat.zero_lt_one, logLevelOf_nil]
      cases logLevelOf level <;> simp
    · rw [if_neg (lt_irrefl _), if_pos Nat.one_lt_two]
      cases logLevelOf level <;> simp [eq_comm]
    · rw [if_neg (by omega), if_neg (by omega)]
      cases logLevelOf level <;> simp

theorem createLoggerFromConfig_of_found {settings : Config.Options} {key : Bytes} (s : Loading)
    (hkey : key ≠ []) (h : Found (Log.tokenize (getOption settings key) comma true)) :
    createLoggerFromConfig settings s key =
      match configured (key.drop PREFIX_LOGGER.length) (getOption settings key)
        (Log.tokenize (getOption settings key) comma true) with
      | .error m => fmtLogError m s
      | .ok (level, sinksName) =>
        getSinks (Log.tokenize sinksName space false) (lowered level s) >>= fun made =>
          registerLogger (key.drop PREFIX_LOGGER.length) ⟨level, made.1⟩ made.2 := by
  rw [← (loggerOptions_eq_configured_iff _).mpr h]
  exact if_neg hkey

/-- An option is found at its position unless the number of the tokens, cut to a byte, is not above
it; a logger has the level and the sinks of its option unless that number loses them. -/
theorem getPositionOptions_found_iff (options default loggerName : Bytes) (position : UInt8) :
    ∃ tokens, Tokenize.tokenize options comma true = .ok tokens ∧
      (getPositionOptions options position default = .ok (tokens.getD position.toNat default) ↔
        tokens.length ≤ position.toNat ∨ position.toNat < tokens.length % 2 ^ 8 ∨
          tokens[position.toNat]? = some default) ∧
      (loggerOptions loggerName options = configured loggerName options tokens ↔ Found tokens) :=
  have htokens := tokenize_options options comma true
  ⟨_, htokens, getPositionOptions_eq_iff htokens, loggerOptions_eq_configured_iff loggerName⟩

/-- With 256 tokens the number is 0. -/
theorem getPositionOptions_crowded :
    let options := ascii "2,Console" ++ List.replicate 254 comma
    ∃ tokens, Tokenize.tokenize options comma true = .ok tokens ∧ tokens.length = 256 ∧
      tokens[0]? = some (ascii "2") ∧ tokens[1]? = some (ascii "Console") ∧
      logLevelOf (ascii "2") = some .info ∧ getPositionOptions options 0 = .ok [] ∧
      loggerOptions (ascii "root") options = .error (message
        "Log::CreateLoggerFromConfig: Wrong Log Level for logger \x7b\x7d" [ascii "root"]) := by
  intro options
  have hsplit : options.splitOn comma =
      ascii "2" :: ascii "Console" :: (List.replicate 253 comma).splitOn comma := by
    have hlevel : comma ∉ ascii "2" := by decide +kernel
    have hsinks : comma ∉ ascii "Console" := by decide +kernel
    have hoptions : options = ascii "2" ++ comma :: (ascii "Console" ++ comma ::
      List.replicate 253 comma) := by decide +kernel
    rw [hoptions, List.splitOn_append_cons_self_of_not_mem hlevel,
      List.splitOn_append_cons_self_of_not_mem hsinks]
  have hrest : ((List.replicate 253 comma).splitOn comma).length = 254 := by
    rw [length_splitOn, List.count_replicate_self]
  have htokens : Log.tokenize options comma true =
      ascii "2" :: ascii "Console" :: (List.replicate 253 comma).splitOn comma := by
    rw [← hsplit, Log.tokenize]
    simp
  have hne : options ≠ [] := by decide +kernel
  refine ⟨_, (tokenize_options options comma true).trans (congrArg Except.ok htokens), ?_, rfl, rfl,
    by decide +kernel, ?_, ?_⟩
  · rw [List.length_cons, List.length_cons, hrest]
  · rw [getPositionOptions_eq ((tokenize_options options comma true).trans
      (congrArg Except.ok htokens)), List.length_cons, List.length_cons, hrest]
    rfl
  · rw [loggerOptions_of_tokens _ hne htokens, hrest]
    rfl

end Warhead.PositionOptions
