import WarheadFix.Common.Log

/-! The text of a record. A macro formats its arguments, and the call below it formats the
result once more, as a format string of its own. -/

namespace Warhead.Log
open Lib

def reportFields (e : Fmt.FormatError) (source : SourceLoc) : List (Bytes × Bytes) :=
  [(ascii "Wrong format occurred (", e.what), (ascii ") at '", source.file),
    (ascii ":", (Nat.toDigits 10 source.line).map Char.toUInt8)]

def report (e : Fmt.FormatError) (source : SourceLoc) : Bytes :=
  (reportFields e source).flatMap (fun f => f.1 ++ f.2) ++ ascii "'"

theorem format_wrongFormat (e : Fmt.FormatError) (source : SourceLoc) :
    Fmt.format wrongFormat (wrongFormatArgs e source) = .ok (report e source) := by
  have hfields : ∀ f ∈ reportFields e source, Fmt.Braceless f.1 := by
    intro f hf
    have htext : f.1 ∈ (reportFields e source).map Prod.fst := List.mem_map_of_mem hf
    have hall : ∀ t ∈ [ascii "Wrong format occurred (", ascii ") at '", ascii ":"],
        Fmt.Braceless t := by decide +kernel
    exact hall f.1 htext
  have hfmt : wrongFormat = (reportFields e source).flatMap
      (fun f => f.1 ++ [Fmt.openBrace, Fmt.closeBrace]) ++ ascii "'" := by
    simp only [reportFields, List.flatMap_cons, List.flatMap_nil]
    decide +kernel
  rw [hfmt]
  exact Fmt.format_fields hfields (by decide +kernel)

theorem logExceptionFree_eq (log : Log) {c : Call} {t : Bytes}
    (ht : Fmt.format c.fmt c.args = .ok t) :
    log.logExceptionFree c = .ok (match Fmt.format t [] with
      | .ok message => log.write c.filter c.level c.source message
      | .error e => log.write (ascii "server") .error c.source (report e c.source)) := by
  have htry : (Fmt.format c.fmt c.args >>= fun text =>
      log.outMessage c.filter c.level c.source text []) =
        (Fmt.format t []).map (log.write c.filter c.level c.source) := by
    rw [ht]
    rfl
  unfold logExceptionFree
  rw [htry]
  cases Fmt.format t [] with
  | ok message => rfl
  | error e =>
    show log.outMessage _ _ _ wrongFormat _ = _
    rw [outMessage, format_wrongFormat]
    rfl

def received (name : Bytes) (records : List Record) : List Bytes :=
  (records.filter (·.logger = name)).map (·.payload)

/-- The text reaches the logger of its filter, and nothing else does. -/
def Delivers (log : Log) (c : Call) (name t : Bytes) : Prop :=
  ∃ records, log.logMsgBody c = .ok records ∧ received name records = [t]

/-- The text is what the handler reports of the text, to the same logger. -/
def ReportsItself (log : Log) (c : Call) (name t : Bytes) : Prop :=
  ∃ e server, Fmt.format t [] = .error e ∧ t = report e c.source ∧
    getLoggerByType log.registry (ascii "server") = some (name, server) ∧
    server.level.value ≤ LogLevel.error.value

section Calls
variable {log : Log} {c : Call} {name t : Bytes} {logger : Logger}

theorem received_write {filter message : Bytes} {level : LogLevel} {source : SourceLoc}
    {found : Bytes} (h : getLoggerByType log.registry filter = some (found, logger)) :
    received name (log.write filter level source message) =
      if found = name ∧ logger.level.value ≤ level.value then [message] else [] := by
  rw [write, h]
  by_cases hlevel : logger.level.value ≤ level.value
  · by_cases hname : found = name
    · simp only [received, hlevel, hname, List.filter_cons, List.filter_nil, decide_true,
        List.map_cons, List.map_nil, and_self, if_true]
    · simp only [received, hlevel, hname, List.filter_cons, List.filter_nil, decide_false,
        List.map_nil, false_and, if_true, if_false, Bool.false_eq_true]
  · simp only [hlevel, and_false, if_false]
    rfl

theorem level_le_of_shouldLog (h : log.shouldLog c.filter c.level = true)
    (hlogger : getLoggerByType log.registry c.filter = some (name, logger)) :
    logger.level.value ≤ c.level.value := by
  unfold shouldLog at h
  rw [hlogger] at h
  split_ifs at h
  exact of_decide_eq_true (Bool.and_eq_true _ _ ▸ h).2

theorem delivers_eq (h : log.shouldLog c.filter c.level = true)
    (ht : Fmt.format c.fmt c.args = .ok t) :
    Delivers log c name t ↔ received name (match Fmt.format t [] with
      | .ok message => log.write c.filter c.level c.source message
      | .error e => log.write (ascii "server") .error c.source (report e c.source)) = [t] := by
  have hbody : log.logMsgBody c = log.logExceptionFree c := if_pos h
  rw [Delivers, hbody, logExceptionFree_eq log ht]
  constructor
  · rintro ⟨records, hrecords, hreceived⟩
    rw [Except.ok.inj hrecords]
    exact hreceived
  · exact fun hreceived => ⟨_, rfl, hreceived⟩

theorem delivers_iff (h : log.shouldLog c.filter c.level = true)
    (hlogger : getLoggerByType log.registry c.filter = some (name, logger))
    (ht : Fmt.format c.fmt c.args = .ok t) :
    Delivers log c name t ↔ Fmt.Braceless t ∨ ReportsItself log c name t := by
  have hlevel := level_le_of_shouldLog h hlogger
  rw [delivers_eq h ht, ← Fmt.format_no_args_iff]
  cases hagain : Fmt.format t [] with
  | ok message =>
    show received name (log.write _ _ _ message) = [t] ↔ _
    rw [received_write hlogger, if_pos ⟨rfl, hlevel⟩]
    constructor
    · intro hm
      exact .inl (congrArg Except.ok (List.head_eq_of_cons_eq hm))
    · rintro (hm | ⟨e, _, he, -⟩)
      · rw [Except.ok.inj hm]
      · rw [hagain] at he
        cases he
  | error e =>
    show received name (log.write (ascii "server") .error c.source (report e c.source)) = [t] ↔ _
    constructor
    · intro hreceived
      cases hserver : getLoggerByType log.registry (ascii "server") with
      | none =>
        rw [write, hserver] at hreceived
        cases hreceived
      | some found =>
        rw [received_write hserver] at hreceived
        split_ifs at hreceived with hfound
        obtain ⟨hname, hopen⟩ := hfound
        have htext : report e c.source = t := List.head_eq_of_cons_eq hreceived
        exact .inr ⟨e, found.2, hagain, htext.symm, hname ▸ hserver, hopen⟩
    · rintro (hm | ⟨e', server, he, htext, hserver, hopen⟩)
      · cases hm
      · rw [hagain] at he
        cases he
        rw [received_write hserver, if_pos ⟨rfl, hopen⟩, ← htext]

end Calls

/-- A macro delivers its text as it is, and without reading any of it as a format string, if
and only if there is no brace in it. The text alone also comes out if it is its own report. -/
theorem logged_text_iff (log : Log) (c : Call) {name t : Bytes} {logger : Logger}
    (h : log.shouldLog c.filter c.level = true)
    (hlogger : getLoggerByType log.registry c.filter = some (name, logger))
    (ht : Fmt.format c.fmt c.args = .ok t) :
    ((Delivers log c name t ∧ Fmt.Verbatim t) ↔ Fmt.Braceless t) ∧
      (Delivers log c name t ↔ Fmt.Braceless t ∨ ReportsItself log c name t) := by
  have hdelivers := delivers_iff h hlogger ht
  refine ⟨?_, hdelivers⟩
  rw [Fmt.verbatim_iff]
  constructor
  · exact And.right
  · exact fun hb => ⟨hdelivers.mpr (.inl hb), hb⟩

def rootOnly : Log := ⟨AList.singleton LOGGER_ROOT ⟨.info, []⟩, .info⟩

def senderCompID (value : Bytes) : Call :=
  ⟨ascii "fix.message", .info, ⟨ascii "FixMessage.cpp", 62, ascii "IsReadLogonMessage"⟩,
    ascii "SenderCompID = \x7b\x7d", [.plain value]⟩

theorem rootOnly_resolves (value : Bytes) :
    getLoggerByType rootOnly.registry (senderCompID value).filter =
      some (LOGGER_ROOT, ⟨.info, []⟩) := by
  have hroot : rootOnly.registry.lookup (parentLogger (ascii "fix")) = some ⟨.info, []⟩ := by
    decide +kernel
  have hfix : getLoggerByType rootOnly.registry (ascii "fix") = _ :=
    (getLoggerByType_parent (by decide +kernel) (by decide +kernel)).trans
      (getLoggerByType_self hroot)
  show getLoggerByType rootOnly.registry (ascii "fix.message") = _
  exact (getLoggerByType_parent (by decide +kernel) (by decide +kernel)).trans hfix

theorem rootOnly_shouldLog (value : Bytes) :
    rootOnly.shouldLog (senderCompID value).filter (senderCompID value).level = true := by
  rw [shouldLog, rootOnly_resolves]
  rfl

theorem format_senderCompID (value : Bytes) :
    Fmt.format (senderCompID value).fmt (senderCompID value).args =
      .ok (ascii "SenderCompID = " ++ value) := by
  have hfields : ∀ f ∈ [(ascii "SenderCompID = ", value)], Fmt.Braceless f.1 := by
    rw [List.forall_mem_singleton]
    show Fmt.Braceless (ascii "SenderCompID = ")
    decide +kernel
  have hlast : Fmt.Braceless [] := fun _ hc => absurd hc List.not_mem_nil
  have h := Fmt.format_fields hfields hlast
  simp only [List.flatMap_cons, List.flatMap_nil, List.append_nil, List.map_cons,
    List.map_nil] at h
  exact h

theorem logged_text_iff_senderCompID :
    ((Delivers rootOnly (senderCompID (ascii "AAAA")) LOGGER_ROOT (ascii "SenderCompID = AAAA") ∧
        Fmt.Verbatim (ascii "SenderCompID = AAAA")) ↔
      Fmt.Braceless (ascii "SenderCompID = AAAA")) ∧
      (Delivers rootOnly (senderCompID (ascii "AAAA")) LOGGER_ROOT (ascii "SenderCompID = AAAA") ↔
        Fmt.Braceless (ascii "SenderCompID = AAAA") ∨
          ReportsItself rootOnly (senderCompID (ascii "AAAA")) LOGGER_ROOT
            (ascii "SenderCompID = AAAA")) :=
  logged_text_iff rootOnly (senderCompID (ascii "AAAA")) (rootOnly_shouldLog _)
    (rootOnly_resolves _) (format_senderCompID (ascii "AAAA"))

/-- A client that calls itself by a pair of braces is not logged under that name. -/
theorem braces_not_logged :
    rootOnly.shouldLog (ascii "fix.message") .info = true ∧
      getLoggerByType rootOnly.registry (ascii "fix.message") =
        some (LOGGER_ROOT, ⟨.info, []⟩) ∧
      Fmt.format (ascii "SenderCompID = \x7b\x7d") [.plain (ascii "\x7b\x7d")] =
        .ok (ascii "SenderCompID = \x7b\x7d") ∧
      ¬Delivers rootOnly (senderCompID (ascii "\x7b\x7d")) LOGGER_ROOT
        (ascii "SenderCompID = \x7b\x7d") := by
  have hformat := format_senderCompID (ascii "\x7b\x7d")
  refine ⟨rootOnly_shouldLog [], rootOnly_resolves [], hformat, ?_⟩
  intro h
  have hcases := (delivers_iff (rootOnly_shouldLog _) (rootOnly_resolves _) hformat).mp h
  obtain hbraceless | ⟨e, _, _, htext, _⟩ := hcases
  · exact absurd hbraceless (by decide +kernel)
  · have hhead := congrArg List.head? htext
    cases hhead

end Warhead.Log
