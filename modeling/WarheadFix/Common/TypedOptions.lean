import WarheadFix.Common.ConfigText
import WarheadFix.Common.StringConvert

/-! Options by type. What the files say of an option is text; it is converted when the option is
asked for, and the default stands in for a text that is missing or that does not convert. -/

namespace Warhead.Config
open Lib StringConvert

/-- The types that `GetOption` is instantiated for, floating point aside. -/
inductive OptionType where
  | integral (T : Integral)
  | bool
  | string

namespace OptionType

abbrev Value : OptionType → Type
  | integral T => T.Value
  | bool => Bool
  | string => Bytes

def toString : (type : OptionType) → type.Value → Outcome Empty Bytes
  | integral _, val => StringConvert.toString val
  | bool, val => .ok (if val then ascii "1" else ascii "0")
  | string, val => .ok val

def stringTo : (type : OptionType) → Bytes → Option type.Value
  | integral T, str => fromString T str 10
  | bool, str => Log.stringToBool str
  | string, str => some str

def text : (type : OptionType) → type.Value → Bytes
  | integral _, val => StringConvert.text val
  | bool, val => if val then ascii "1" else ascii "0"
  | string, val => val

theorem toString_eq (type : OptionType) (val : type.Value) :
    type.toString val = .ok (type.text val) := by
  cases type with
  | integral T => exact StringConvert.toString_eq val
  | bool => rfl
  | string => rfl

theorem stringTo_text (type : OptionType) (val : type.Value) :
    type.stringTo (type.text val) = some val := by
  cases type with
  | integral T => exact fromString_eq_some.mpr (denotes_text val)
  | bool => cases val <;> decide
  | string => rfl

end OptionType

/-- The error lines about an option: that it is missing, which is said differently of a string,
and that its value is bad, each with the default. -/
inductive OptionError where
  | missingProperty (name default : Bytes)
  | missingOption (name default : Bytes)
  | badValue (name default : Bytes)
  deriving DecidableEq

def OptionType.missing : OptionType → Bytes → Bytes → OptionError
  | string => .missingOption
  | _ => .missingProperty

def logError (showLogs : Bool) (e : OptionError) : List OptionError := if showLogs then [e] else []

abbrev Fetched (type : OptionType) := Outcome Empty (type.Value × List OptionError)

def getValueDefault (type : OptionType) (options : Options) (name : Bytes) (default : type.Value)
    (showLogs : Bool) : Fetched type := do
  match options.lookup name with
  | none =>
    let shown ← type.toString default
    pure (default, logError showLogs (type.missing name shown))
  | some str =>
    match type.stringTo str with
    | none =>
      let shown ← type.toString default
      pure (default, logError showLogs (.badValue name shown))
    | some value => pure (value, [])

/-- A `bool` is fetched as a string, with its default as one, and converted afterwards. -/
def getBoolOption (options : Options) (name : Bytes) (default showLogs : Bool) :
    Fetched .bool := do
  let shown ← OptionType.toString .bool default
  let (val, errors) ← getValueDefault .string options name shown showLogs
  match OptionType.stringTo .bool val with
  | none =>
    let shown := if default then ascii "true" else ascii "false"
    pure (default, errors ++ logError showLogs (.badValue name shown))
  | some value => pure (value, errors)

def getOption : (type : OptionType) → Options → Bytes → type.Value → Bool → Fetched type
  | .bool => getBoolOption
  | .integral T => getValueDefault (.integral T)
  | .string => getValueDefault .string

/-! ## What is read -/

def valueOf (type : OptionType) (said : Option Bytes) (default : type.Value) : type.Value :=
  (said.bind type.stringTo).getD default

def complains (type : OptionType) (said : Option Bytes) (showLogs : Bool) : Bool :=
  showLogs && (said.bind type.stringTo).isNone

section Fetching
variable {type : OptionType} {options : Options} {name : Bytes}

theorem logError_ne_nil {showLogs : Bool} (e : OptionError) :
    logError showLogs e ≠ [] ↔ showLogs = true := by
  cases showLogs <;> simp [logError]

theorem getValueDefault_spec (default : type.Value) (showLogs : Bool) :
    ∃ errors, getValueDefault type options name default showLogs =
      .ok (valueOf type (options.lookup name) default, errors) ∧
        (errors ≠ [] ↔ complains type (options.lookup name) showLogs = true) := by
  unfold getValueDefault valueOf complains
  rw [type.toString_eq]
  cases options.lookup name with
  | none =>
    refine ⟨_, rfl, (logError_ne_nil _).trans ?_⟩
    rw [Option.bind_none, Option.isNone_none, Bool.and_true]
  | some str =>
    rw [Option.bind_some]
    dsimp only
    cases type.stringTo str with
    | none =>
      refine ⟨_, rfl, (logError_ne_nil _).trans ?_⟩
      rw [Option.isNone_none, Bool.and_true]
    | some value => exact ⟨[], rfl, by simp⟩

theorem getBoolOption_spec (default showLogs : Bool) :
    ∃ errors, getBoolOption options name default showLogs =
      .ok (valueOf .bool (options.lookup name) default, errors) ∧
        (errors ≠ [] ↔ complains .bool (options.lookup name) showLogs = true) := by
  have hback := OptionType.stringTo_text .bool default
  unfold getBoolOption getValueDefault valueOf complains
  rw [OptionType.toString_eq]
  cases options.lookup name with
  | none =>
    refine ⟨logError showLogs (.missingOption name (OptionType.text .bool default)), ?_, ?_⟩
    · -- the default is printed and read back
      simp only [bind, Except.bind, pure, Except.pure, OptionType.toString_eq]
      change (match OptionType.stringTo .bool (OptionType.text .bool default) with
        | none => _
        | some value => _) = _
      rw [hback]
      rfl
    · rw [logError_ne_nil, Option.bind_none, Option.isNone_none, Bool.and_true]
  | some str =>
    rw [Option.bind_some]
    simp only [bind, Except.bind, pure, Except.pure, OptionType.stringTo]
    cases Log.stringToBool str with
    | none =>
      refine ⟨_, rfl, ?_⟩
      rw [List.nil_append, logError_ne_nil, Option.isNone_none, Bool.and_true]
    | some value => exact ⟨[], rfl, by simp⟩

theorem getOption_spec (type : OptionType) (options : Options) (name : Bytes)
    (default : type.Value) (showLogs : Bool) :
    ∃ errors, getOption type options name default showLogs =
      .ok (valueOf type (options.lookup name) default, errors) ∧
        (errors ≠ [] ↔ complains type (options.lookup name) showLogs = true) := by
  cases type with
  | integral T => exact getValueDefault_spec default showLogs
  | string => exact getValueDefault_spec default showLogs
  | bool => exact getBoolOption_spec default showLogs

end Fetching

/-! ## What is written -/

section Written
variable {hashDist hashConf : HashOrder} {dist conf : List TextLine} {name : Bytes}

def Counts (ls : List TextLine) : Prop := ((pairs ls).map Prod.fst).dedup.length % 2 ^ 32 ≠ 0

end Written
end Warhead.Config
