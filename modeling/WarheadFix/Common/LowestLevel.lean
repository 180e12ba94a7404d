import WarheadFix.Common.LoggerNames
import WarheadFix.Common.LoggerSinks
import WarheadFix.Lib.Interrupted
import WarheadFix.Lib.System

/-! The lowest level of all loggers, which answers for them before they are looked up. Loading can
end in an exception half-way, and the log goes on with the loggers it had got by then. Where
every logger can be made, the outcome is that of `Log.loadFromConfig` (`does_loadFromConfig`). -/

namespace Warhead.Log
open Lib Config

/-! ## Loading that keeps what it has done -/

abbrev MakeLogger := Bytes → Except Bytes Unit

namespace Interrupted
open Lib.Interrupted

abbrev Program := EStateM (Fault Fmt.FormatError) Loading

def printError (m : Message) : Program Unit := effect (fmtLogError m)

def readSinksFromConfig (hash : HashOrder) (openFile : OpenFile) (options : Options) :
    Program Unit :=
  match getKeysByString hash options PREFIX_SINK with
  | [] => printError
      (message "Log::ReadChannelsFromConfig - Not found sinks, change config file!" [])
  | key :: keys => (key :: keys).forM fun key =>
      effect fun s => createSinksFromConfig openFile options s key

def getSinks : List Bytes → Program (List Sink)
  | [] => pure []
  | sinkName :: sinkNames => do
    let sink ← action (getSink sinkName)
    let sinks ← getSinks sinkNames
    pure (sink.toList ++ sinks)

def createLogger (makeLogger : MakeLogger) (loggerName : Bytes) (logger : Logger) : Program Unit :=
  match makeLogger loggerName with
  | .ok () => effect (registerLogger loggerName logger)
  | .error what => printError (message "Log::CreateLogger - \x7b\x7d" [what])

/-- The lowest level is set before the sinks are looked for and the logger is made. -/
def createLoggerFromConfig (makeLogger : MakeLogger) (options : Options)
    (configLoggerName : Bytes) : Program Unit :=
  if configLoggerName = [] then pure ()
  else
    let loggerName := configLoggerName.drop PREFIX_LOGGER.length
    match loggerOptions loggerName (getOption options configLoggerName) with
    | .error m => printError m
    | .ok (level, sinksName) => do
      update (lowered level)
      let sinks ← getSinks (tokenize sinksName space false)
      createLogger makeLogger loggerName ⟨level, sinks⟩

def readLoggersFromConfig (makeLogger : MakeLogger) (hash : HashOrder) (options : Options) :
    Program Unit :=
  match getKeysByString hash options PREFIX_LOGGER with
  | [] => printError
      (message "Log::ReadLoggersFromConfig - Not found loggers, change config file!" [])
  | key :: keys => do
    (key :: keys).forM (createLoggerFromConfig makeLogger options)
    effect fun s =>
      if LOGGER_ROOT ∈ s.registry then .ok s
      else fmtLogError (message "Log::ReadLoggersFromConfig - Logger '\x7b0\x7d' not found!\nPlease change or add 'Logger.\x7b0\x7d' option in config file!"
        [LOGGER_ROOT]) s

def loadFromConfig (makeLogger : MakeLogger) (hashSinks hashLoggers : HashOrder)
    (openFile : OpenFile) (options : Options) : Program Unit := do
  update fun s => { s with
    lowestLogLevel := .critical, registry := ∅, sinkList := ∅, logsDir := initLogsDir options }
  readSinksFromConfig hashSinks openFile options
  readLoggersFromConfig makeLogger hashLoggers options
  update fun s => { s with sinkList := ∅ }

/-! ## The same outcome -/

section Outcome
variable {openFile : OpenFile} {options : Options}

def makesAll : MakeLogger := fun _ => .ok ()

theorem does_readSinksFromConfig (hash : HashOrder) :
    Does (readSinksFromConfig hash openFile options)
      (Log.readSinksFromConfig hash openFile options) := by
  intro s
  unfold readSinksFromConfig Log.readSinksFromConfig
  cases getKeysByString hash options PREFIX_SINK with
  | nil => exact does_effect _ s
  | cons key keys => exact does_forM (fun _ => does_effect _) (key :: keys) s

theorem outcome_getSinks (names : List Bytes) (s : Loading) :
    outcome (getSinks names) s = Log.getSinks names s := by
  induction names generalizing s with
  | nil => rfl
  | cons name names ih =>
    rw [getSinks, Log.getSinks]
    simp only [outcome_bind, outcome_action, outcome_pure, ih]
    rfl

theorem does_createLoggerFromConfig (name : Bytes) :
    Does (createLoggerFromConfig makesAll options name)
      fun s => Log.createLoggerFromConfig options s name := by
  intro s
  unfold createLoggerFromConfig Log.createLoggerFromConfig
  split_ifs with hname
  · rfl
  · cases hoption : loggerOptions (name.drop PREFIX_LOGGER.length) (getOption options name) with
    | error m =>
      simp only [hoption]
      exact does_effect _ s
    | ok r =>
      simp only [hoption, outcome_bind, outcome_getSinks]
      change (Log.getSinks _ (lowered r.1 s) >>= fun q => outcome (effect _) q.2) = _
      cases Log.getSinks (tokenize r.2 space false) (lowered r.1 s) with
      | error e => rfl
      | ok q => exact does_effect _ q.2

theorem does_readLoggersFromConfig (hash : HashOrder) :
    Does (readLoggersFromConfig makesAll hash options)
      (Log.readLoggersFromConfig hash options) := by
  intro s
  unfold readLoggersFromConfig Log.readLoggersFromConfig
  cases getKeysByString hash options PREFIX_LOGGER with
  | nil => exact does_effect _ s
  | cons key keys =>
    exact ((does_forM does_createLoggerFromConfig (key :: keys)).seq (does_effect _)) s

theorem does_loadFromConfig (hashSinks hashLoggers : HashOrder) :
    Does (loadFromConfig makesAll hashSinks hashLoggers openFile options)
      (Log.loadFromConfig hashSinks hashLoggers openFile options) :=
  (does_update _).seq ((does_readSinksFromConfig hashSinks).seq
    ((does_readLoggersFromConfig hashLoggers).seq (does_update _)))

end Outcome

/-! ## What loading keeps -/

section Kept
variable {openFile : OpenFile} {options : Options} {s s' : Loading} {I : Log → Prop}

def Keeps (I : Log → Prop) (x : Program α) : Prop :=
  Leaves (fun s => I s.toLog) x (fun _ s => I s.toLog) fun s => I s.toLog

theorem keeps_effect {g : Loading → Outcome Fmt.FormatError Loading}
    (h : ∀ s t, g s = .ok t → t.toLog = s.toLog) : Keeps I (effect g) := by
  apply leaves_effect
  · intro s t hs hg
    rw [h s t hg]
    exact hs
  · exact fun _ hs => hs

theorem keeps_printError (m : Message) : Keeps I (printError m) :=
  keeps_effect fun _ _ h => (fmtLogError_ok h).1

theorem createSinksFromConfig_toLog {key : Bytes}
    (h : createSinksFromConfig openFile options s key = .ok s') : s'.toLog = s.toLog := by
  unfold createSinksFromConfig at h
  split_ifs at h with hkey
  · cases h
    rfl
  · dsimp only at h
    split at h
    · unfold addSink at h
      split_ifs at h
      · exact (fmtLogError_ok h).1
      · cases h
        rfl
    · exact (fmtLogError_ok h).1
    · cases h

theorem getSink_toLog {name : Bytes} {r : Option Sink × Loading} (h : getSink name s = .ok r) :
    r.2.toLog = s.toLog := by
  unfold getSink at h
  split at h
  · obtain ⟨t, hmessage, h⟩ := bind_eq_ok.mp h
    cases h
    exact (fmtLogError_ok hmessage).1
  · cases h
    rfl

theorem keeps_readSinksFromConfig (hash : HashOrder) :
    Keeps I (readSinksFromConfig hash openFile options) := by
  unfold readSinksFromConfig
  cases getKeysByString hash options PREFIX_SINK with
  | nil => exact keeps_printError _
  | cons key keys =>
    exact leaves_forM fun _ _ => keeps_effect fun _ _ => createSinksFromConfig_toLog

theorem keeps_getSinks (names : List Bytes) : Keeps I (getSinks names) := by
  induction names with
  | nil => exact leaves_pure fun _ hs => hs
  | cons name names ih =>
    have hone : Keeps I (action (getSink name)) := by
      apply leaves_action
      · intro s a t hs hg
        rw [show t.toLog = s.toLog from getSink_toLog hg]
        exact hs
      · exact fun _ hs => hs
    exact hone.bind fun _ => ih.bind fun _ => leaves_pure fun _ hs => hs

end Kept

/-! ## The lowest level -/

section Lowest
variable {makeLogger : MakeLogger} {openFile : OpenFile} {options : Options} {s t : Loading}
  {level : LogLevel} {name : Bytes} {logger : Logger}

def Lowest (log : Log) : Prop :=
  ∀ name logger, log.registry.lookup name = some logger →
    log.lowestLogLevel.value ≤ logger.level.value

def LowestWith (level : LogLevel) (log : Log) : Prop :=
  Lowest log ∧ log.lowestLogLevel.value ≤ level.value

theorem lowest_empty {lowest : LogLevel} : Lowest ⟨∅, lowest⟩ := by
  intro name logger h
  rw [AList.lookup_empty] at h
  cases h

theorem lowestWith_lowered (h : Lowest s.toLog) : LowestWith level (lowered level s).toLog := by
  unfold lowered
  split_ifs with hlevel
  · exact ⟨fun name logger hl => hlevel.le.trans (h name logger hl), le_rfl⟩
  · exact ⟨h, not_lt.mp hlevel⟩

theorem lowest_registerLogger (h : LowestWith logger.level s.toLog)
    (hok : registerLogger name logger s = .ok t) : Lowest t.toLog := by
  unfold registerLogger at hok
  split_ifs at hok with hname
  · rw [(fmtLogError_ok hok).1]
    exact h.1
  · cases hok
    intro other logger' hl
    by_cases he : other = name
    · rw [he] at hl
      have hlogger : logger = logger' := Option.some.inj ((AList.lookup_insert _).symm.trans hl)
      rw [← hlogger]
      exact h.2
    · exact h.1 other logger' ((AList.lookup_insert_ne he).symm.trans hl)

theorem leaves_createLogger (name : Bytes) (logger : Logger) :
    Leaves (fun s => LowestWith logger.level s.toLog) (createLogger makeLogger name logger)
      (fun _ s => Lowest s.toLog) fun s => Lowest s.toLog := by
  unfold createLogger
  cases makeLogger name with
  | ok u => exact leaves_effect (fun _ _ hs hg => lowest_registerLogger hs hg) fun _ hs => hs.1
  | error what =>
    exact (keeps_printError _).conseq (fun _ hs => hs.1) (fun _ _ hs => hs) fun _ hs => hs

theorem keeps_createLoggerFromConfig (key : Bytes) :
    Keeps Lowest (createLoggerFromConfig makeLogger options key) := by
  unfold createLoggerFromConfig
  split_ifs with hkey
  · exact leaves_pure fun _ hs => hs
  · cases hoption : loggerOptions (key.drop PREFIX_LOGGER.length) (getOption options key) with
    | error m =>
      simp only [hoption]
      exact keeps_printError m
    | ok r =>
      simp only [hoption]
      -- the level is lowered before the logger is there, and the sinks may stop it from coming
      have hlowered : Leaves (fun s => Lowest s.toLog) (update (lowered r.1) : Program Unit)
          (fun _ s => LowestWith r.1 s.toLog) fun s => Lowest s.toLog := by
        apply leaves_effect
        · intro s t hs ht
          cases ht
          exact lowestWith_lowered hs
        · exact fun _ hs => hs
      have hsinks : Leaves (fun s => LowestWith r.1 s.toLog)
          (getSinks (tokenize r.2 space false)) (fun _ s => LowestWith r.1 s.toLog)
          fun s => Lowest s.toLog :=
        (keeps_getSinks _).conseq (fun _ hs => hs) (fun _ _ hs => hs) fun _ hs => hs.1
      exact hlowered.bind fun _ => hsinks.bind fun sinks => leaves_createLogger _ ⟨r.1, sinks⟩

theorem keeps_readLoggersFromConfig (hash : HashOrder) :
    Keeps Lowest (readLoggersFromConfig makeLogger hash options) := by
  unfold readLoggersFromConfig
  cases getKeysByString hash options PREFIX_LOGGER with
  | nil => exact keeps_printError _
  | cons key keys =>
    have hroot : Keeps Lowest (effect fun s : Loading => if LOGGER_ROOT ∈ s.registry then .ok s
        else fmtLogError (message "Log::ReadLoggersFromConfig - Logger '\x7b0\x7d' not found!\nPlease change or add 'Logger.\x7b0\x7d' option in config file!"
          [LOGGER_ROOT]) s) := by
      apply keeps_effect
      intro s t h
      split_ifs at h
      · cases h
        rfl
      · exact (fmtLogError_ok h).1
    exact (leaves_forM fun key _ => keeps_createLoggerFromConfig key).bind fun _ => hroot

theorem keeps_loadFromConfig (makeLogger : MakeLogger) (hashSinks hashLoggers : HashOrder)
    (openFile : OpenFile) (options : Options) :
    Keeps Lowest (loadFromConfig makeLogger hashSinks hashLoggers openFile options) := by
  have hclear : Keeps Lowest (update fun s : Loading => { s with
      lowestLogLevel := .critical, registry := ∅, sinkList := ∅,
      logsDir := initLogsDir options }) := by
    apply leaves_effect
    · intro s t hs ht
      cases ht
      exact lowest_empty
    · exact fun _ hs => hs
  have hend : Keeps Lowest (update fun s : Loading => { s with sinkList := ∅ }) :=
    keeps_effect fun s t ht => by
      cases ht
      rfl
  exact hclear.bind fun _ => (keeps_readSinksFromConfig hashSinks).bind fun _ =>
    (keeps_readLoggersFromConfig hashLoggers).bind fun _ => hend

end Lowest
end Interrupted

/-! ## All loads -/

structure Load where
  hashSinks : HashOrder
  hashLoggers : HashOrder
  openFile : OpenFile
  makeLogger : MakeLogger
  options : Options

def load (s : Loading) (l : Load) : Option Loading :=
  match Interrupted.loadFromConfig l.makeLogger l.hashSinks l.hashLoggers l.openFile l.options s with
  | .ok _ t => some t
  | .error (.thrown _) t => some t
  | .error _ _ => none

def loads : System Loading Load := ⟨unloaded, load⟩

theorem lowest_load {s t : Loading} {l : Load} (hs : Interrupted.Lowest s.toLog)
    (h : load s l = some t) : Interrupted.Lowest t.toLog := by
  have hkeeps := Interrupted.keeps_loadFromConfig l.makeLogger l.hashSinks l.hashLoggers
    l.openFile l.options s hs
  unfold load at h
  cases hrun : Interrupted.loadFromConfig l.makeLogger l.hashSinks l.hashLoggers l.openFile
      l.options s with
  | ok u r =>
    rw [hrun] at h hkeeps
    cases h
    exact hkeeps
  | error e r =>
    rw [hrun] at h hkeeps
    cases e with
    | thrown e =>
      cases h
      exact hkeeps
    | aborted => cases h
    | undefined => cases h
    | diverges => cases h

theorem lowest_reachable {s : Loading} (h : loads.Reachable s) : Interrupted.Lowest s.toLog :=
  h.invariant Interrupted.lowest_empty fun _ _ _ => lowest_load

/-- A message is refused at the lowest level only if its logger would refuse it too. -/
theorem shouldLog_iff_of_reachable {s : Loading} (h : loads.Reachable s) (type : Bytes)
    (level : LogLevel) : s.shouldLog type level = true ↔
      ∃ name logger, getLoggerByType s.registry type = some (name, logger) ∧
        logger.level ≠ .disabled ∧ logger.level.value ≤ level.value := by
  have hlowest := lowest_reachable h
  unfold shouldLog
  rcases getLoggerByType_spec s.registry type with ⟨name, logger, hget, hres⟩ | ⟨hget, -⟩
  · have hle := hlowest name logger hres.registered
    rw [hget]
    constructor
    · intro hlog
      split_ifs at hlog
      obtain ⟨hlevel, hvalue⟩ := (Bool.and_eq_true _ _).mp hlog
      exact ⟨name, logger, rfl, bne_iff_ne.mp hlevel, of_decide_eq_true hvalue⟩
    · rintro ⟨name', logger', he, hlevel, hvalue⟩
      cases he
      rw [if_neg (not_lt.mpr (hle.trans hvalue))]
      exact (Bool.and_eq_true _ _).mpr ⟨bne_iff_ne.mpr hlevel, decide_eq_true hvalue⟩
  · rw [hget]
    constructor
    · intro hlog
      split_ifs at hlog
    · rintro ⟨name, logger, he, -⟩
      cases he

def loadThrowing : Load where
  hashSinks := .listed
  hashLoggers := .listed
  openFile := fun _ => .ok ()
  makeLogger := Interrupted.makesAll
  options := ((∅ : Options).insert (PREFIX_LOGGER ++ ascii "\x7b") []).insert
    (PREFIX_LOGGER ++ ascii "server") (ascii "4,Console")

theorem shouldLog_iff_of_reachable_thrown :
    ∃ s, load unloaded loadThrowing = some s ∧
      s.registry.lookup (ascii "server") = some ⟨.error, []⟩ ∧
      (s.shouldLog (ascii "server") .warning = true ↔
        ∃ name logger, getLoggerByType s.registry (ascii "server") = some (name, logger) ∧
          logger.level ≠ .disabled ∧ logger.level.value ≤ LogLevel.warning.value) := by
  have h : (load unloaded loadThrowing).map (fun s => s.registry.lookup (ascii "server")) =
      some (some ⟨.error, []⟩) := by decide +kernel
  obtain ⟨s, hload, hserver⟩ := Option.map_eq_some_iff.mp h
  have hreachable : loads.Reachable s := loads.reachable_start.step (e := loadThrowing) hload
  exact ⟨s, hload, hserver, shouldLog_iff_of_reachable hreachable (ascii "server") .warning⟩

end Warhead.Log
