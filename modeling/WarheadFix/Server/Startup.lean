import WarheadFix.Common.TypedOptions
import WarheadFix.Shared.SocketMgr

/-! How the server starts: the file that the command line names, the configuration and the log
that it describes, and the port that the configuration says to listen on. -/

namespace Warhead.Main
open Lib Config SocketMgr

/-- The last argument behind a `-c`; nothing where one is missing. -/
def parseArguments (configFile : Bytes) : List Bytes → Option Bytes
  | [] => some configFile
  | arg :: args =>
    if arg = ascii "-c" then
      match args with
      | [] => none
      | file :: args => parseArguments file args
    else parseArguments configFile args

structure Machine where
  configPath : Bytes
  files : Bytes → Option File
  hashDist : HashOrder
  hashConf : HashOrder
  hashSinks : HashOrder
  hashLoggers : HashOrder
  openFile : Log.OpenFile
  listens : Bytes → Nat → Bool
  counts : ConnectionCounts

inductive Exit where
  | noFileArgument
  | badConfig
  | failed (f : Fault Fmt.FormatError)
  | portOutOfRange
  | noNetwork
  -- an assertion of the network has failed
  | aborted
  | serving (bindIp : Bytes) (port : Nat) (manager : SocketMgr)

def configFile : Bytes := ascii "WarheadFix.conf"

def defaultPort : (OptionType.integral .int32).Value := ⟨5001, by decide⟩

def defaultIp : Bytes := ascii "0.0.0.0"

def unlogged : Log.Loading where
  registry := ∅
  lowestLogLevel := .critical
  logsDir := []
  sinkList := ∅
  printed := []

/-- The network, for an `int32` that is cut to the port. -/
def startNetwork (m : Machine) (bindIp : Bytes) (port : Int) : Exit :=
  let port := (port % 2 ^ 16).toNat
  match AuthSocketMgr.startNetwork (m.listens bindIp port) 1 m.counts .new with
  | none => .aborted
  | some (_, false) => .noNetwork
  | some (manager, true) => .serving bindIp port manager

def startServer (m : Machine) (options : Options) : Exit :=
  match getOption (.integral .int32) options (ascii "ServerPort") defaultPort true with
  | .error _ => .aborted
  | .ok (port, _) =>
    if port.1 < 0 ∨ 0xFFFF < port.1 then .portOutOfRange
    else
      match getOption .string options (ascii "BindIP") defaultIp true with
      | .error _ => .aborted
      | .ok (bindIp, _) => startNetwork m bindIp port.1

def main (m : Machine) (args : List Bytes) : Exit :=
  match parseArguments (m.configPath ++ configFile) args with
  | none => .noFileArgument
  | some file =>
    match loadAppConfigs m.hashDist m.hashConf (m.files (file ++ ascii ".dist")) (m.files file)
      ⟨∅, false, []⟩ with
    | (_, false) => .badConfig
    | (s, true) =>
      match Log.loadFromConfig m.hashSinks m.hashLoggers m.openFile s.configOptions unlogged with
      | .error f => .failed f
      | .ok _ => startServer m s.configOptions

/-! ## What is served -/

section Serving
variable {m : Machine} {args : List Bytes} {options : Options} {bindIp : Bytes} {port : Nat}

/-- The number that the text of an option denotes, and the default for any other text. -/
def Says (T : StringConvert.Integral) (said : Option Bytes) (default : T.Value) (i : Int) : Prop :=
  (∃ str, said = some str ∧ T.Holds i ∧ StringConvert.Denotes T str i) ∨
    (∀ str i, said = some str → T.Holds i → ¬StringConvert.Denotes T str i) ∧ i = default.1

theorem says_iff {T : StringConvert.Integral} {said : Option Bytes} {default : T.Value} {i : Int} :
    Says T said default i ↔ (valueOf (.integral T) said default).1 = i := by
  have hread {str : Bytes} {i : Int} (hi : T.Holds i) (hd : StringConvert.Denotes T str i) :
      OptionType.stringTo (.integral T) str = some ⟨i, hi⟩ := StringConvert.fromString_eq_some.mpr hd
  constructor
  · rintro (⟨str, rfl, hi, hd⟩ | ⟨hnone, rfl⟩)
    · rw [valueOf, Option.bind_some, hread hi hd]
      rfl
    · suffices hbad : said.bind (OptionType.stringTo (.integral T)) = none by
        rw [valueOf, hbad]
        rfl
      apply Option.eq_none_iff_forall_not_mem.mpr
      intro val hval
      obtain ⟨str, hstr, hval⟩ := Option.bind_eq_some_iff.mp hval
      exact hnone str val.1 hstr val.2 (StringConvert.fromString_eq_some.mp hval)
  · rintro rfl
    unfold valueOf
    cases hsaid : said.bind (OptionType.stringTo (.integral T)) with
    | none =>
      refine .inr ⟨fun str i hstr hi hd => ?_, rfl⟩
      rw [hstr, Option.bind_some, hread hi hd] at hsaid
      cases hsaid
    | some val =>
      obtain ⟨str, hstr, hval⟩ := Option.bind_eq_some_iff.mp hsaid
      exact .inl ⟨str, hstr, val.2, StringConvert.fromString_eq_some.mp hval⟩

theorem startNetwork_iff {ip : Bytes} {i : Int} :
    (∃ manager, startNetwork m ip i = .serving bindIp port manager) ↔
      ip = bindIp ∧ (i % 2 ^ 16).toNat = port ∧ m.listens ip port = true := by
  unfold startNetwork AuthSocketMgr.startNetwork SocketMgr.startNetwork
  dsimp only
  rw [if_neg (by decide)]
  constructor
  · rintro ⟨manager, h⟩
    split_ifs at h with hlistens
    · obtain ⟨rfl, rfl, -⟩ := Exit.serving.inj h
      exact ⟨rfl, rfl, hlistens⟩
  · rintro ⟨rfl, rfl, hlistens⟩
    rw [if_pos hlistens]
    exact ⟨_, rfl⟩

theorem startServer_iff : (∃ manager, startServer m options = .serving bindIp port manager) ↔
    port < 2 ^ 16 ∧ Says .int32 (options.lookup (ascii "ServerPort")) defaultPort port ∧
      bindIp = (options.lookup (ascii "BindIP")).getD defaultIp ∧ m.listens bindIp port = true := by
  obtain ⟨_, hport, -⟩ := getOption_spec (.integral .int32) options (ascii "ServerPort")
    defaultPort true
  obtain ⟨_, hip, -⟩ := getOption_spec .string options (ascii "BindIP") defaultIp true
  have hvalue : valueOf .string (options.lookup (ascii "BindIP")) defaultIp =
      (options.lookup (ascii "BindIP")).getD defaultIp := by
    cases options.lookup (ascii "BindIP") <;> rfl
  rw [hvalue] at hip
  rw [says_iff]
  unfold startServer
  rw [hport, hip]
  dsimp only
  split_ifs with hrange
  · refine ⟨fun ⟨_, h⟩ => (nomatch h), fun ⟨hlt, heq, _⟩ => ?_⟩
    rw [heq] at hrange
    omega
  · rw [startNetwork_iff]
    constructor
    · rintro ⟨rfl, rfl, hlistens⟩
      refine ⟨by omega, by omega, rfl, hlistens⟩
    · rintro ⟨hlt, heq, rfl, hlistens⟩
      refine ⟨rfl, by omega, hlistens⟩

def LogStarts (m : Machine) (dist conf : Option File) : Prop :=
  ∃ log, Log.loadFromConfig m.hashSinks m.hashLoggers m.openFile
    (loadAppConfigs m.hashDist m.hashConf dist conf ⟨∅, false, []⟩).1.configOptions unlogged = .ok log

theorem exists_ok_iff {ε α : Type} {x : Except ε α} :
    (∃ a, x = .ok a) ↔ x.toOption.isSome = true := by
  cases x <;> simp [Except.toOption]

theorem main_iff : (∃ manager, main m args = .serving bindIp port manager) ↔
    ∃ file, parseArguments (m.configPath ++ configFile) args = some file ∧
      parses (m.files (file ++ ascii ".dist")) = true ∧
      LogStarts m (m.files (file ++ ascii ".dist")) (m.files file) ∧
      ∃ manager, startServer m (loadAppConfigs m.hashDist m.hashConf
        (m.files (file ++ ascii ".dist")) (m.files file) ⟨∅, false, []⟩).1.configOptions =
          .serving bindIp port manager := by
  unfold main
  cases parseArguments (m.configPath ++ configFile) args with
  | none => exact ⟨fun ⟨_, h⟩ => (nomatch h), fun ⟨_, h, _⟩ => (nomatch h)⟩
  | some file =>
    obtain ⟨hloaded, -⟩ := loadAppConfigs_spec m.hashDist m.hashConf
      (m.files (file ++ ascii ".dist")) (m.files file) ⟨∅, false, []⟩
    simp only [Option.some.injEq, exists_eq_left']
    unfold LogStarts
    rcases hload : loadAppConfigs m.hashDist m.hashConf (m.files (file ++ ascii ".dist"))
      (m.files file) ⟨∅, false, []⟩ with ⟨s, loaded⟩
    rw [hload] at hloaded
    rw [← hloaded]
    cases loaded with
    | false => exact ⟨fun ⟨_, h⟩ => (nomatch h), fun ⟨h, _⟩ => (nomatch h)⟩
    | true =>
      dsimp only
      cases Log.loadFromConfig m.hashSinks m.hashLoggers m.openFile s.configOptions unlogged with
      | error f => exact ⟨fun ⟨_, h⟩ => (nomatch h), fun ⟨_, ⟨_, h⟩, _⟩ => (nomatch h)⟩
      | ok log => exact ⟨fun h => ⟨rfl, ⟨log, rfl⟩, h⟩, fun h => h.2.2⟩

theorem manager_of_serving {manager : SocketMgr} (h : main m args = .serving bindIp port manager) :
    ∃ base, SocketMgr.startNetwork AuthSocketMgr.createThreads true 1 .new = some (base, true) ∧
      manager = base.asyncAcceptWithCallback m.counts := by
  unfold main at h
  split at h
  · cases h
  split at h
  · cases h
  split at h
  · cases h
  unfold startServer at h
  split at h
  · cases h
  split_ifs at h
  split at h
  · cases h
  unfold startNetwork AuthSocketMgr.startNetwork SocketMgr.startNetwork at h
  dsimp only at h
  rw [if_neg (by decide)] at h
  split_ifs at h
  · exact ⟨_, rfl, (Exit.serving.inj h).2.2.symm⟩

/-- The server comes up exactly where the files of the command line say so: it listens on the
number that is written for the port, or the default where that is none, and only if it is a port;
and every thread that its network ever uses is there. -/
theorem serving_iff (m : Machine) (args : List Bytes) (bindIp : Bytes) (port : Nat) :
    ((∃ manager, main m args = .serving bindIp port manager) ↔
      ∃ file, parseArguments (m.configPath ++ configFile) args = some file ∧
        parses (m.files (file ++ ascii ".dist")) = true ∧
        LogStarts m (m.files (file ++ ascii ".dist")) (m.files file) ∧
        port < 2 ^ 16 ∧
        Says .int32 (layered (m.files (file ++ ascii ".dist")) (m.files file) (ascii "ServerPort"))
          defaultPort port ∧
        bindIp = (layered (m.files (file ++ ascii ".dist")) (m.files file)
          (ascii "BindIP")).getD defaultIp ∧
        m.listens bindIp port = true) ∧
    ∀ manager es t, main m args = .serving bindIp port manager →
      (running manager).runFrom manager es = some t → t.InRange := by
  constructor
  · rw [main_iff]
    refine exists_congr fun file => and_congr_right fun _ => and_congr_right fun hparses =>
      and_congr_right fun _ => ?_
    obtain ⟨-, hlookup⟩ := loadAppConfigs_spec m.hashDist m.hashConf
      (m.files (file ++ ascii ".dist")) (m.files file) ⟨∅, false, []⟩
    rw [startServer_iff, hlookup hparses, hlookup hparses]
  · intro manager es t hmain hrun
    obtain ⟨base, hbase, rfl⟩ := manager_of_serving hmain
    exact (inRange_iff_le Nat.one_pos hbase hrun).mpr le_rfl

def sampleMachine : Machine where
  configPath := ascii "etc/"
  files name :=
    if name = ascii "my.conf.dist" then some ⟨ascii "ServerPort = 5001\nLogsDir = \"\"", false⟩
    else if name = ascii "my.conf" then some ⟨ascii "ServerPort = \"6000\"", false⟩
    else none
  hashDist := .listed
  hashConf := .listed
  hashSinks := .listed
  hashLoggers := .listed
  openFile _ := .ok ()
  listens _ _ := true
  counts _ _ := 0

theorem serving_iff_sample :
    (∃ manager, main sampleMachine [ascii "-c", ascii "my.conf"] =
      .serving (ascii "0.0.0.0") 6000 manager) ∧
    ¬∃ manager, main sampleMachine [] = .serving (ascii "0.0.0.0") 6000 manager := by
  constructor
  · apply (serving_iff sampleMachine [ascii "-c", ascii "my.conf"] (ascii "0.0.0.0") 6000).1.mpr
    refine ⟨ascii "my.conf", by decide +kernel, by decide +kernel, exists_ok_iff.mpr ?_, by decide, ?_,
      by decide +kernel, rfl⟩
    · decide +kernel
    · exact .inl ⟨ascii "6000", by decide +kernel, by decide,
        ⟨ascii "6000", by decide, by unfold IsDigits; decide +kernel, .inl ⟨rfl, by decide +kernel⟩⟩⟩
  · intro h
    obtain ⟨file, hfile, hparses, -⟩ :=
      (serving_iff sampleMachine [] (ascii "0.0.0.0") 6000).1.mp h
    rw [← Option.some.inj hfile] at hparses
    exact absurd hparses (by decide +kernel)

end Serving
end Warhead.Main
