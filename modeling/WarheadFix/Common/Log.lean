import WarheadFix.Common.Fmt
import WarheadFix.Lib.Layer

/-! Logging: the loggers by their names, the levels, and the way of a text from the macro to
the sinks of a logger. -/

namespace Warhead
open Lib

inductive LogLevel where
  | trace
  | debug
  | info
  | warning
  | error
  | critical
  | disabled
  deriving DecidableEq

def LogLevel.value : LogLevel → Nat
  | .trace => 0
  | .debug => 1
  | .info => 2
  | .warning => 3
  | .error => 4
  | .critical => 5
  | .disabled => 6

def LogLevel.ofValue : Nat → Option LogLevel
  | 0 => some .trace
  | 1 => some .debug
  | 2 => some .info
  | 3 => some .warning
  | 4 => some .error
  | 5 => some .critical
  | 6 => some .disabled
  | _ => none

inductive SinkTarget where
  | console
  | file (fileName : Bytes) (maxFilesSize maxFiles : Nat) (rotateOnOpen : Bool)
  deriving DecidableEq

structure Sink where
  name : Bytes
  level : LogLevel
  pattern : Bytes
  target : SinkTarget
  deriving DecidableEq

structure Logger where
  level : LogLevel
  sinks : List Sink
  deriving DecidableEq

abbrev Registry := Dict Bytes Logger

structure SourceLoc where
  file : Bytes
  line : Nat
  function : Bytes

structure Record where
  logger : Bytes
  level : LogLevel
  source : SourceLoc
  payload : Bytes
  handedTo : List Sink

namespace Log

def LOGGER_ROOT : Bytes := ascii "root"

def parentLogger (type : Bytes) : Bytes :=
  if 46 ∈ type then (type.rdropWhile (· != 46)).dropLast else LOGGER_ROOT

theorem length_parentLogger_lt {type : Bytes} (h : 46 ∈ type) :
    (parentLogger type).length < type.length := by
  rw [parentLogger, if_pos h, List.length_dropLast]
  have hle : (type.rdropWhile (· != 46)).length ≤ type.length :=
    (List.rdropWhile_prefix _ _).length_le
  have hpos : 0 < type.length := List.length_pos_of_mem h
  omega

def getLoggerByType (registry : Registry) (type : Bytes) : Option (Bytes × Logger) :=
  match registry.lookup type with
  | some logger => some (type, logger)
  | none =>
    if type = LOGGER_ROOT then none else getLoggerByType registry (parentLogger type)
termination_by if type = LOGGER_ROOT then 0 else type.length + 1
decreasing_by
  rename_i h
  rw [if_neg h]
  split_ifs with hroot
  · exact Nat.succ_pos _
  · have hdot : 46 ∈ type := by
      by_contra hdot
      exact hroot (if_neg hdot)
    exact Nat.add_lt_add_right (length_parentLogger_lt hdot) 1

section Types
variable {registry : Registry} {type : Bytes} {logger : Logger}

theorem getLoggerByType_self (h : registry.lookup type = some logger) :
    getLoggerByType registry type = some (type, logger) := by
  rw [getLoggerByType, h]

theorem getLoggerByType_parent (h : registry.lookup type = none) (hroot : type ≠ LOGGER_ROOT) :
    getLoggerByType registry type = getLoggerByType registry (parentLogger type) := by
  rw [getLoggerByType, h]
  exact if_neg hroot

end Types
end Log

structure Log where
  registry : Registry
  lowestLogLevel : LogLevel

namespace Log

def shouldLog (log : Log) (type : Bytes) (level : LogLevel) : Bool :=
  if level.value < log.lowestLogLevel.value then false
  else
    match getLoggerByType log.registry type with
    | none => false
    | some (_, logger) => logger.level != .disabled && decide (logger.level.value ≤ level.value)

def write (log : Log) (filter : Bytes) (level : LogLevel) (source : SourceLoc)
    (message : Bytes) : List Record :=
  match getLoggerByType log.registry filter with
  | none => []
  | some (name, logger) =>
    if logger.level.value ≤ level.value then
      [⟨name, level, source, message, logger.sinks.filter (·.level.value ≤ level.value)⟩]
    else []

def outMessage (log : Log) (filter : Bytes) (level : LogLevel) (source : SourceLoc)
    (fmt : Bytes) (args : List Fmt.Arg) : Except Fmt.FormatError (List Record) := do
  let message ← Fmt.format fmt args
  pure (log.write filter level source message)

def wrongFormat : Bytes := ascii "Wrong format occurred (\x7b\x7d) at '\x7b\x7d:\x7b\x7d'"

def wrongFormatArgs (e : Fmt.FormatError) (source : SourceLoc) : List Fmt.Arg :=
  [.plain e.what, .plain source.file, .plain ((Nat.toDigits 10 source.line).map Char.toUInt8)]

structure Call where
  filter : Bytes
  level : LogLevel
  source : SourceLoc
  fmt : Bytes
  args : List Fmt.Arg

def logExceptionFree (log : Log) (c : Call) : Except Fmt.FormatError (List Record) :=
  match (do
    let text ← Fmt.format c.fmt c.args
    log.outMessage c.filter c.level c.source text [] : Except Fmt.FormatError (List Record)) with
  | .ok records => .ok records
  | .error e =>
    log.outMessage (ascii "server") .error c.source wrongFormat (wrongFormatArgs e c.source)

def logMsgBody (log : Log) (c : Call) : Except Fmt.FormatError (List Record) :=
  if log.shouldLog c.filter c.level then log.logExceptionFree c else .ok []

end Log
end Warhead
