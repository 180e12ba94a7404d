import WarheadFix.Lib.Layer
import WarheadFix.Lib.Memory
import WarheadFix.Lib.Strip

/-! The configuration: a required .dist file and an optional .conf file over it. Each file is
staged whole before any of its options takes effect. -/

namespace Warhead
open Lib

structure File where
  contents : Bytes
  readError : Bool

namespace Config

inductive ConfigException where
  | failedOpen
  | failedRead (lineNumber : Nat)
  | emptyFile
  deriving DecidableEq

/-- The error lines of the loader. That of a dublicate key has the name of the file for its format
string, so it does not show the key. -/
inductive Message where
  | exception (e : ConfigException)
  | skippedLine (lineNumber : Nat)
  | dublicateKey
  | incorrectOption (name : Bytes)
  deriving DecidableEq

abbrev Options := Dict Bytes Bytes

/-- The order in which an `unordered_map` is walked. -/
structure HashOrder where
  order : List (Entry Bytes Bytes) → List (Entry Bytes Bytes)
  perm : ∀ es, (order es).Perm es

def HashOrder.listed : HashOrder := ⟨id, fun _ => .rfl⟩

structure State where
  configOptions : Options
  usingDistConfig : Bool
  printed : List Message

/-! ## Lines -/

def isSpace (c : UInt8) : Bool := c = 32 || (9 ≤ c && c ≤ 13)

def contains (s text : Bytes) : Bool := s.tails.any (text.isPrefixOf ·)

def isLoggingSystemOptions (optionName : Bytes) : Bool :=
  contains optionName (ascii "Sink.") || contains optionName (ascii "Logger.")

inductive Line where
  | blank
  | skipped
  | option (entry value : Bytes)
  deriving DecidableEq

/-- A line of a file: white space and comments off, cut at the first '#', split at the first
'=', and without the quotes in its value. What `Trim` makes of a text is `StringFormat.trim_eq`. -/
def parseLine (line : Bytes) : Line :=
  match strip isSpace line with
  | [] => .blank
  | c :: cs =>
    if c = 35 ∨ c = 91 then .blank
    else
      let line := (c :: cs).takeWhile (· != 35)
      if (61 : UInt8) ∈ line then
        .option (strip isSpace (line.takeWhile (· != 61)))
          ((strip isSpace (line.dropWhile (· != 61)).tail).filter (· != 34))
      else .skipped

/-- What `getline` gives, the last of them at the end of the file. -/
def lines (file : File) : List Bytes := file.contents.splitOn 10

/-! ## Loading -/

structure Staging where
  count : Nat
  lineNumber : Nat
  fileConfigs : Options
  printed : List Message

def stageLine (s : Staging) (line : Bytes) : Staging :=
  let s := { s with lineNumber := (s.lineNumber + 1) % 2 ^ 32 }
  match parseLine line with
  | .blank => s
  | .skipped => { s with printed := s.printed ++ [.skippedLine s.lineNumber] }
  | .option entry value =>
    if entry ∈ s.fileConfigs then { s with printed := s.printed ++ [.dublicateKey] }
    else
      { s with
        fileConfigs := s.fileConfigs.insert entry value
        count := (s.count + 1) % 2 ^ 32 }

def stageLines (ls : List Bytes) : Staging := ls.foldl stageLine ⟨0, 0, ∅, []⟩

def addKey (isOptional isReload : Bool) (s : State) (e : Entry Bytes Bytes) : State :=
  if (isOptional && !decide (e.1 ∈ s.configOptions)) && (!isLoggingSystemOptions e.1 && !isReload)
  then { s with printed := s.printed ++ [.incorrectOption e.1] }
  else { s with configOptions := (s.configOptions.erase e.1).insert e.1 e.2 }

def parseFile (hash : HashOrder) (file : Option File) (isOptional isReload : Bool) (s : State) :
    State × Except ConfigException Bool :=
  match file with
  | none => (s, if isOptional then .ok false else .error .failedOpen)
  | some file =>
    if file.readError then
      let staged := stageLines (lines file).dropLast
      ({ s with printed := s.printed ++ staged.printed },
        .error (.failedRead ((staged.lineNumber + 1) % 2 ^ 32)))
    else
      let staged := stageLines (lines file)
      let s := { s with printed := s.printed ++ staged.printed }
      if staged.count = 0 then (s, if isOptional then .ok false else .error .emptyFile)
      else ((hash.order staged.fileConfigs.entries).foldl (addKey isOptional isReload) s, .ok true)

def loadFile (hash : HashOrder) (file : Option File) (isOptional isReload : Bool) (s : State) :
    State × Bool :=
  match parseFile hash file isOptional isReload s with
  | (s, .ok b) => (s, b)
  | (s, .error e) => ({ s with printed := s.printed ++ [.exception e] }, false)

def loadInitial (hash : HashOrder) (file : Option File) (isReload : Bool) (s : State) :
    State × Bool :=
  loadFile hash file false isReload { s with configOptions := ∅ }

def loadAdditionalFile (hash : HashOrder) (file : Option File) (isOptional isReload : Bool)
    (s : State) : State × Bool :=
  loadFile hash file isOptional isReload s

def loadAppConfigs (hashDist hashConf : HashOrder) (dist conf : Option File) (s : State) :
    State × Bool :=
  match loadInitial hashDist dist false s with
  | (s, false) => (s, false)
  | (s, true) =>
    match loadAdditionalFile hashConf conf true false s with
    | (s, true) => (s, true)
    | (s, false) => ({ s with usingDistConfig := true }, true)

example : parseLine (ascii " LogLevel = \"3\" # three") = .option (ascii "LogLevel") (ascii "3") ∧
    parseLine (ascii "[worldserver]") = .blank ∧ parseLine (ascii "LogLevel") = .skipped := by
  decide

end Config
end Warhead
