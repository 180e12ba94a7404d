import WarheadFix.Common.Config
import WarheadFix.Common.Log

/-! Building the loggers from the configuration: first the sinks, then the loggers, each of
which takes its sinks out of the list of sinks. -/

namespace Warhead.Log
open Lib Config

/-! ## Texts of options

In closed form. The loops of the source come to it by `Tokenize.tokenize_options`,
`StringConvert.stringTo_eq` and `PositionOptions.getPositionOptions_options`. -/

def comma : UInt8 := 44

def space : UInt8 := 32

def tokenize (str : Bytes) (sep : UInt8) (keepEmpty : Bool) : List Bytes :=
  (str.splitOn sep).filter fun token => keepEmpty || token != []

def stringTo (bits : Nat) (s : Bytes) : Option Nat :=
  if s ≠ [] ∧ s.all Fmt.isDigit ∧ decimal s < 2 ^ bits then some (decimal s) else none

def toLower (c : UInt8) : UInt8 := if 65 ≤ c ∧ c ≤ 90 then c + 32 else c

def stringEqualI (a b : Bytes) : Bool := a.map toLower == b.map toLower

def stringToBool (s : Bytes) : Option Bool :=
  if s = ascii "1" || stringEqualI s (ascii "y") || stringEqualI s (ascii "on") ||
      stringEqualI s (ascii "yes") || stringEqualI s (ascii "true") then some true
  else if s = ascii "0" || stringEqualI s (ascii "n") || stringEqualI s (ascii "off") ||
      stringEqualI s (ascii "no") || stringEqualI s (ascii "false") then some false
  else none

/-- The number of the tokens is cut to a byte before it is compared. -/
def getPositionOptions (options : Bytes) (position : Nat) : Bytes :=
  let tokens := tokenize options comma true
  if tokens.length % 2 ^ 8 < position + 1 then [] else tokens.getD position []

def logLevelOf (s : Bytes) : Option LogLevel := (stringTo 8 s).bind LogLevel.ofValue

def getOption (options : Options) (name : Bytes) : Bytes := (options.lookup name).getD []

def getKeysByString (hash : HashOrder) (options : Options) (name : Bytes) : List Bytes :=
  ((hash.order options.entries).map (·.1)).filter (name.isPrefixOf ·)

def initLogsDir (options : Options) : Bytes :=
  let logsDir := getOption options (ascii "LogsDir")
  match logsDir.getLast? with
  | none => []
  | some c => if c ≠ 47 ∧ c ≠ 92 then logsDir ++ [47] else logsDir

/-! ## State and messages -/

structure Loading extends Log where
  logsDir : Bytes
  -- a sink that was taken out leaves its name behind
  sinkList : Dict Bytes (Option Sink)
  printed : List Bytes

structure Message where
  fmt : Bytes
  args : List Fmt.Arg

def message (fmt : String) (args : List Bytes) : Message := ⟨ascii fmt, args.map .plain⟩

/-- The text is formatted again for the terminal, as it is for a logger. -/
def fmtLogError (m : Message) (s : Loading) : Outcome Fmt.FormatError Loading :=
  match (do
    let text ← Fmt.format m.fmt m.args
    Fmt.format (text ++ [10]) [] : Except Fmt.FormatError Bytes) with
  | .ok line => .ok { s with printed := s.printed ++ [line] }
  | .error e => .error (.thrown e)

/-! ## Sinks -/

def PREFIX_SINK : Bytes := ascii "Sink."

inductive SinkFailure where
  | message (m : Message)
  | aborted

abbrev OpenFile := Bytes → Except Bytes Unit

def rotatingFileSink (openFile : OpenFile) (sinkName : Bytes) (maxSize maxFiles : Nat) :
    Except Bytes Unit :=
  if maxSize = 0 then .error (ascii "rotating sink constructor: max_size arg cannot be zero")
  else if 200000 < maxFiles then
    .error (ascii "rotating sink constructor: max_files arg cannot exceed 200000")
  else openFile sinkName

def createFileSink (openFile : OpenFile) (logsDir sinkName options : Bytes) (level : LogLevel)
    (pattern : Bytes) : Except SinkFailure Sink :=
  if (tokenize options comma true).length < 4 then .error .aborted
  else
    let fileName := getPositionOptions options 3
    match stringToBool (getPositionOptions options 4), stringTo 64 (getPositionOptions options 5),
      stringTo 64 (getPositionOptions options 6) with
    | some rotateOnOpen, some maxFilesSize, some maxFiles =>
      let maxSize := maxFilesSize * 1048576 % 2 ^ 64
      match rotatingFileSink openFile sinkName maxSize maxFiles with
      | .ok () => .ok ⟨sinkName, level, pattern,
          .file (logsDir ++ fileName) maxSize maxFiles rotateOnOpen⟩
      | .error what => .error (.message (message "\x7b\x7d: Sink init failed: \x7b\x7d"
          [ascii "CreateSinksFromConfig", what]))
    | _, _, _ => .error .aborted

def createSink (openFile : OpenFile) (logsDir sinkName options : Bytes) :
    Except SinkFailure Sink :=
  let failure (text : String) (more : List Bytes) : Except SinkFailure Sink :=
    .error (.message (message text (ascii "CreateSinksFromConfig" :: sinkName :: more)))
  let tokens := tokenize options comma true
  if options = [] then failure "\x7b\x7d: Missing config option Sink.\x7b\x7d" []
  else if tokens.length < 3 ∨ 7 < tokens.length then
    failure "\x7b\x7d: Wrong config option Sink.\x7b\x7d=\x7b\x7d" [options]
  else
    match stringTo 8 (getPositionOptions options 0) with
    | none => failure "\x7b\x7d: Wrong sink type for Sink.\x7b\x7d\n" []
    | some channelType =>
      if 2 ≤ channelType then failure "\x7b\x7d: Wrong sink type for Sink.\x7b\x7d\n" []
      else
        match logLevelOf (getPositionOptions options 1) with
        | none => failure "\x7b\x7d: Wrong Log Level for Sink.\x7b\x7d" []
        | some level =>
          let pattern := getPositionOptions options 2
          if pattern = [] then failure "\x7b\x7d: Empty pattern for Sink.\x7b\x7d" []
          else if channelType = 0 then .ok ⟨sinkName, level, pattern, .console⟩
          else createFileSink openFile logsDir sinkName options level pattern

def addSink (sinkName : Bytes) (sink : Sink) (s : Loading) : Outcome Fmt.FormatError Loading :=
  if sinkName ∈ s.sinkList then
    fmtLogError (message "> \x7b\x7d: Sink with name '\x7b\x7d' is exist!. Skip add"
      [ascii "AddSink", sinkName]) s
  else .ok { s with sinkList := s.sinkList.insert sinkName (some sink) }

def createSinksFromConfig (openFile : OpenFile) (options : Options) (s : Loading)
    (loggerSinkName : Bytes) : Outcome Fmt.FormatError Loading :=
  if loggerSinkName = [] then .ok s
  else
    let sinkName := loggerSinkName.drop PREFIX_SINK.length
    match createSink openFile s.logsDir sinkName (getOption options loggerSinkName) with
    | .ok sink => addSink sinkName sink s
    | .error (.message m) => fmtLogError m s
    | .error .aborted => .error .aborted

def readSinksFromConfig (hash : HashOrder) (openFile : OpenFile) (options : Options)
    (s : Loading) : Outcome Fmt.FormatError Loading :=
  match getKeysByString hash options PREFIX_SINK with
  | [] => fmtLogError
      (message "Log::ReadChannelsFromConfig - Not found sinks, change config file!" []) s
  | key :: keys => (key :: keys).foldlM (createSinksFromConfig openFile options) s

/-! ## Loggers -/

def PREFIX_LOGGER : Bytes := ascii "Logger."

/-- A sink that is there is moved out of the list. -/
def getSink (sinkName : Bytes) (s : Loading) :
    Outcome Fmt.FormatError (Option Sink × Loading) :=
  match s.sinkList.lookup sinkName with
  | none => do
    let s ← fmtLogError (message "> \x7b\x7d: Sink with name '\x7b\x7d' is don't exist!"
      [ascii "GetSink", sinkName]) s
    pure (none, s)
  | some sink => .ok (sink, { s with sinkList := s.sinkList.insert sinkName none })

def getSinks : List Bytes → Loading → Outcome Fmt.FormatError (List Sink × Loading)
  | [], s => .ok ([], s)
  | sinkName :: sinkNames, s => do
    let (sink, s) ← getSink sinkName s
    let (sinks, s) ← getSinks sinkNames s
    pure (sink.toList ++ sinks, s)

def loggerOptions (loggerName options : Bytes) : Except Message (LogLevel × Bytes) :=
  if options = [] then .error (message
    "Log::CreateLoggerFromConfig: Missing config option Logger.\x7b\x7d" [loggerName])
  else if (tokenize options comma true).length < 2 then .error (message
    "Log::CreateLoggerFromConfig: Bad config options for Logger (\x7b\x7d)" [loggerName])
  else
    match logLevelOf (getPositionOptions options 0) with
    | none => .error (message
        "Log::CreateLoggerFromConfig: Wrong Log Level for logger \x7b\x7d" [loggerName])
    | some level => .ok (level, getPositionOptions options 1)

def registerLogger (loggerName : Bytes) (logger : Logger) (s : Loading) :
    Outcome Fmt.FormatError Loading :=
  if loggerName ∈ s.registry then
    fmtLogError (message "Log::CreateLogger - \x7b\x7d"
      [ascii "logger with name '" ++ loggerName ++ ascii "' already exists"]) s
  else .ok { s with registry := s.registry.insert loggerName logger }

def lowered (level : LogLevel) (s : Loading) : Loading :=
  if level.value < s.lowestLogLevel.value then { s with lowestLogLevel := level } else s

def createLoggerFromConfig (options : Options) (s : Loading) (configLoggerName : Bytes) :
    Outcome Fmt.FormatError Loading :=
  if configLoggerName = [] then .ok s
  else
    let loggerName := configLoggerName.drop PREFIX_LOGGER.length
    match loggerOptions loggerName (getOption options configLoggerName) with
    | .error m => fmtLogError m s
    | .ok (level, sinksName) => do
      let (sinks, s) ← getSinks (tokenize sinksName space false) (lowered level s)
      registerLogger loggerName ⟨level, sinks⟩ s

def readLoggersFromConfig (hash : HashOrder) (options : Options) (s : Loading) :
    Outcome Fmt.FormatError Loading :=
  match getKeysByString hash options PREFIX_LOGGER with
  | [] => fmtLogError
      (message "Log::ReadLoggersFromConfig - Not found loggers, change config file!" []) s
  | key :: keys => do
    let s ← (key :: keys).foldlM (createLoggerFromConfig options) s
    if LOGGER_ROOT ∈ s.registry then pure s
    else fmtLogError (message "Log::ReadLoggersFromConfig - Logger '\x7b0\x7d' not found!\nPlease change or add 'Logger.\x7b0\x7d' option in config file!"
      [LOGGER_ROOT]) s

def loadFromConfig (hashSinks hashLoggers : HashOrder) (openFile : OpenFile)
    (options : Options) (s : Loading) : Outcome Fmt.FormatError Loading := do
  let s := { s with
    lowestLogLevel := .critical, registry := ∅, sinkList := ∅, logsDir := initLogsDir options }
  let s ← readSinksFromConfig hashSinks openFile options s
  let s ← readLoggersFromConfig hashLoggers options s
  pure { s with sinkList := ∅ }

end Warhead.Log
