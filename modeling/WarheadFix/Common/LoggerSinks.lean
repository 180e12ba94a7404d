import WarheadFix.Common.LogConfig
import WarheadFix.Lib.HandOut

/-! Which sinks the loggers get. The list of sinks is a store that hands out each sink once, so
a sink goes to the first logger that names it, in the order in which the loggers are made. -/

namespace Warhead.Log
open Lib Config

section Steps
variable {openFile : OpenFile} {options : Options} {s s' : Loading} {m : Message}

def Loading.store (s : Loading) (name : Bytes) : Option Sink := (s.sinkList.lookup name).join

theorem fmtLogError_ok (h : fmtLogError m s = .ok s') :
    s'.toLog = s.toLog ∧ s'.logsDir = s.logsDir ∧ s'.sinkList = s.sinkList := by
  unfold fmtLogError at h
  split at h
  · cases h
    exact ⟨rfl, rfl, rfl⟩
  · cases h

/-! ## The sinks -/

def createdSink (openFile : OpenFile) (options : Options) (name : Bytes) : Option Sink :=
  (createSink openFile (initLogsDir options) name
    (getOption options (PREFIX_SINK ++ name))).toOption

theorem createSinksFromConfig_of_ok {name : Bytes} {sink : Sink}
    (h : createSink openFile s.logsDir name (getOption options (PREFIX_SINK ++ name)) = .ok sink) :
    createSinksFromConfig openFile options s (PREFIX_SINK ++ name) = addSink name sink s := by
  have hkey : PREFIX_SINK ++ name ≠ [] := List.append_ne_nil_of_left_ne_nil (by decide +kernel) _
  simp only [createSinksFromConfig, if_neg hkey, List.drop_left, h]

theorem createSinksFromConfig_lookup {name : Bytes} (hname : name ∉ s.sinkList)
    (h : createSinksFromConfig openFile options s (PREFIX_SINK ++ name) = .ok s') :
    s'.toLog = s.toLog ∧ s'.logsDir = s.logsDir ∧ ∀ k, s'.sinkList.lookup k =
      if k = name then (createSink openFile s.logsDir name
        (getOption options (PREFIX_SINK ++ name))).toOption.map some else s.sinkList.lookup k := by
  have hkey : PREFIX_SINK ++ name ≠ [] := List.append_ne_nil_of_left_ne_nil (by decide +kernel) _
  have hnone : s.sinkList.lookup name = none := AList.lookup_eq_none.mpr hname
  cases hsink : createSink openFile s.logsDir name (getOption options (PREFIX_SINK ++ name)) with
  | ok sink =>
    rw [createSinksFromConfig_of_ok hsink, addSink, if_neg hname] at h
    cases h
    refine ⟨rfl, rfl, ?_⟩
    intro k
    split_ifs with hk
    · rw [hk]
      exact AList.lookup_insert _
    · exact AList.lookup_insert_ne hk
  | error failure =>
    simp only [createSinksFromConfig, if_neg hkey, List.drop_left, hsink] at h
    cases failure with
    | message m =>
      obtain ⟨hlog, hlogs, hlist⟩ := fmtLogError_ok h
      refine ⟨hlog, hlogs, ?_⟩
      intro k
      rw [hlist]
      split_ifs with hk
      · rw [hk, hnone]
        rfl
      · rfl
    | aborted => cases h

theorem createSinksFromConfig_ok {name : Bytes} (hdir : s.logsDir = initLogsDir options)
    (hname : name ∉ s.sinkList)
    (h : createSinksFromConfig openFile options s (PREFIX_SINK ++ name) = .ok s') :
    s'.toLog = s.toLog ∧ s'.logsDir = s.logsDir ∧ ∀ k, s'.sinkList.lookup k =
      if k = name then (createdSink openFile options name).map some else s.sinkList.lookup k := by
  have hlookup := createSinksFromConfig_lookup hname h
  rw [hdir] at hlookup ⊢
  exact hlookup

theorem createSinks_ok {names : List Bytes} (hnodup : names.Nodup)
    (hdir : s.logsDir = initLogsDir options) (hnames : ∀ name ∈ names, name ∉ s.sinkList)
    (h : (names.map (PREFIX_SINK ++ ·)).foldlM (createSinksFromConfig openFile options) s =
      .ok s') :
    s'.toLog = s.toLog ∧ s'.logsDir = s.logsDir ∧ ∀ k, s'.sinkList.lookup k =
      if k ∈ names then (createdSink openFile options k).map some else s.sinkList.lookup k := by
  induction names generalizing s with
  | nil =>
    cases h
    refine ⟨rfl, rfl, ?_⟩
    intro k
    exact (if_neg List.not_mem_nil).symm
  | cons name names ih =>
    obtain ⟨hname, hnodup⟩ := List.nodup_cons.mp hnodup
    rw [List.map_cons, List.foldlM_cons] at h
    obtain ⟨t, hstep, hrun⟩ := bind_eq_ok.mp h
    obtain ⟨hlog, hlogs, hlist⟩ :=
      createSinksFromConfig_ok hdir (hnames name (List.mem_cons_self ..)) hstep
    have hfree : ∀ other ∈ names, other ∉ t.sinkList := by
      intro other hother
      have hne : other ≠ name := fun he => hname (he ▸ hother)
      rw [← AList.lookup_eq_none, hlist, if_neg hne, AList.lookup_eq_none]
      exact hnames other (List.mem_cons_of_mem _ hother)
    obtain ⟨hlog', hlogs', hlist'⟩ := ih hnodup (hlogs.trans hdir) hfree hrun
    refine ⟨hlog'.trans hlog, hlogs'.trans hlogs, ?_⟩
    intro k
    rw [hlist', hlist]
    by_cases hk : k ∈ names
    · rw [if_pos hk, if_pos (List.mem_cons_of_mem _ hk)]
    · rw [if_neg hk]
      by_cases he : k = name
      · rw [if_pos he, if_pos (he ▸ List.mem_cons_self ..), he]
      · have hcons : k ∉ name :: names := fun h => (List.mem_cons.mp h).elim he hk
        rw [if_neg he, if_neg hcons]

/-! ## The loggers -/

theorem getSink_ok {name : Bytes} {r : Option Sink × Loading} (h : getSink name s = .ok r) :
    r.1 = s.store name ∧ r.2.store = drained s.store [name] ∧ r.2.registry = s.registry := by
  unfold getSink at h
  cases hsink : s.sinkList.lookup name with
  | none =>
    simp only [hsink] at h
    obtain ⟨t, hmessage, h⟩ := bind_eq_ok.mp h
    cases h
    obtain ⟨hlog, -, hlist⟩ := fmtLogError_ok hmessage
    have hnone : s.store name = none := congrArg Option.join hsink
    have hstore : t.store = s.store := by
      funext k
      exact congrArg (fun l : Dict Bytes (Option Sink) => (l.lookup k).join) hlist
    rw [drained_eq_of_none hnone]
    exact ⟨hnone.symm, hstore, congrArg Log.registry hlog⟩
  | some sink =>
    simp only [hsink] at h
    cases h
    refine ⟨(congrArg Option.join hsink).symm, ?_, rfl⟩
    funext k
    show ((s.sinkList.insert name none).lookup k).join = _
    unfold drained
    split_ifs with hk
    · rw [List.mem_singleton.mp hk, AList.lookup_insert]
      rfl
    · rw [AList.lookup_insert_ne fun he => hk (List.mem_singleton.mpr he)]
      rfl

theorem getSinks_ok {names : List Bytes} {r : List Sink × Loading}
    (h : getSinks names s = .ok r) :
    r.1 = taken s.store names ∧ r.2.store = drained s.store names ∧
      r.2.registry = s.registry := by
  induction names generalizing s r with
  | nil =>
    cases h
    exact ⟨rfl, drained_nil.symm, rfl⟩
  | cons name names ih =>
    obtain ⟨⟨sink, t⟩, hone, h⟩ := bind_eq_ok.mp h
    obtain ⟨⟨sinks, u⟩, hrest, h⟩ := bind_eq_ok.mp h
    cases h
    obtain ⟨hsink, hstore, hregistry⟩ := getSink_ok hone
    obtain ⟨hsinks, hstore', hregistry'⟩ := ih hrest
    simp only at hsink hstore hregistry hsinks hstore' hregistry'
    rw [hstore] at hsinks hstore'
    have hlist : name :: names = [name] ++ names := rfl
    refine ⟨?_, ?_, hregistry'.trans hregistry⟩
    · rw [taken, hsink, hsinks]
    · rw [hlist, drained_append]
      exact hstore'

def request (options : Options) (name : Bytes) : Option (LogLevel × Bytes) :=
  (loggerOptions name (getOption options (PREFIX_LOGGER ++ name))).toOption

theorem createLoggerFromConfig_of_error {name : Bytes}
    (h : loggerOptions name (getOption options (PREFIX_LOGGER ++ name)) = .error m) :
    createLoggerFromConfig options s (PREFIX_LOGGER ++ name) = fmtLogError m s := by
  have hkey : PREFIX_LOGGER ++ name ≠ [] :=
    List.append_ne_nil_of_left_ne_nil (by decide +kernel) _
  simp only [createLoggerFromConfig, if_neg hkey, List.drop_left, h]

theorem createLoggerFromConfig_of_ok {name sinksName : Bytes} {level : LogLevel}
    (h : loggerOptions name (getOption options (PREFIX_LOGGER ++ name)) = .ok (level, sinksName)) :
    createLoggerFromConfig options s (PREFIX_LOGGER ++ name) =
      getSinks (tokenize sinksName space false) (lowered level s) >>= fun r =>
        registerLogger name ⟨level, r.1⟩ r.2 := by
  have hkey : PREFIX_LOGGER ++ name ≠ [] :=
    List.append_ne_nil_of_left_ne_nil (by decide +kernel) _
  simp only [createLoggerFromConfig, if_neg hkey, List.drop_left, h]

theorem createLoggerFromConfig_none {name : Bytes} (hnone : request options name = none)
    (h : createLoggerFromConfig options s (PREFIX_LOGGER ++ name) = .ok s') :
    s'.registry = s.registry ∧ s'.store = s.store := by
  cases hoption : loggerOptions name (getOption options (PREFIX_LOGGER ++ name)) with
  | ok r =>
    rw [request, hoption] at hnone
    cases hnone
  | error m =>
    rw [createLoggerFromConfig_of_error hoption] at h
    obtain ⟨hlog, -, hlist⟩ := fmtLogError_ok h
    refine ⟨congrArg Log.registry hlog, ?_⟩
    funext k
    exact congrArg (fun l : Dict Bytes (Option Sink) => (l.lookup k).join) hlist

theorem createLoggerFromConfig_some {name sinksName : Bytes} {level : LogLevel}
    (hname : name ∉ s.registry) (hsome : request options name = some (level, sinksName))
    (h : createLoggerFromConfig options s (PREFIX_LOGGER ++ name) = .ok s') :
    s'.registry = s.registry.insert name
        ⟨level, taken s.store (tokenize sinksName space false)⟩ ∧
      s'.store = drained s.store (tokenize sinksName space false) := by
  cases hoption : loggerOptions name (getOption options (PREFIX_LOGGER ++ name)) with
  | error m =>
    rw [request, hoption] at hsome
    cases hsome
  | ok r =>
    rw [request, hoption] at hsome
    cases hsome
    rw [createLoggerFromConfig_of_ok hoption] at h
    obtain ⟨⟨sinks, t⟩, hsinks, h⟩ := bind_eq_ok.mp h
    obtain ⟨htaken, hstore, hregistry⟩ := getSinks_ok hsinks
    have hlowered : (lowered level s).store = s.store ∧
        (lowered level s).registry = s.registry := by
      unfold lowered
      split_ifs
      · exact ⟨rfl, rfl⟩
      · exact ⟨rfl, rfl⟩
    rw [hlowered.1] at htaken hstore
    rw [hlowered.2] at hregistry
    simp only [registerLogger] at h htaken hstore hregistry
    rw [hregistry, if_neg hname] at h
    cases h
    rw [← htaken]
    exact ⟨rfl, hstore⟩

def requests (options : Options) (names : List Bytes) : List (Bytes × List Bytes) :=
  names.filterMap fun name =>
    (request options name).map fun r => (name, tokenize r.2 space false)

def Loading.sinksOf (s : Loading) (name : Bytes) : Option (List Sink) :=
  (s.registry.lookup name).map Logger.sinks

theorem createLoggers_ok {names : List Bytes} (hnodup : names.Nodup)
    (hfree : ∀ name ∈ names, name ∉ s.registry)
    (h : (names.map (PREFIX_LOGGER ++ ·)).foldlM (createLoggerFromConfig options) s = .ok s')
    (name : Bytes) (sinks : List Sink) :
    s'.sinksOf name = some sinks ↔
      s.sinksOf name = some sinks ∨ (name, sinks) ∈ served s.store (requests options names) := by
  induction names generalizing s with
  | nil =>
    cases h
    exact ⟨.inl, fun h => h.resolve_right List.not_mem_nil⟩
  | cons first names ih =>
    obtain ⟨hfirst, hnodup⟩ := List.nodup_cons.mp hnodup
    obtain ⟨hnew, hfree⟩ := List.forall_mem_cons.mp hfree
    rw [List.map_cons, List.foldlM_cons] at h
    obtain ⟨t, hstep, hrun⟩ := bind_eq_ok.mp h
    cases hrequest : request options first with
    | none =>
      obtain ⟨hregistry, hstore⟩ := createLoggerFromConfig_none hrequest hstep
      have hskip : requests options (first :: names) = requests options names :=
        List.filterMap_cons_none (by rw [hrequest]; rfl)
      rw [ih hnodup (by rwa [hregistry]) hrun, hskip, hstore, Loading.sinksOf, hregistry]
      rfl
    | some r =>
      obtain ⟨hregistry, hstore⟩ := createLoggerFromConfig_some hnew hrequest hstep
      have hcons : requests options (first :: names) =
          (first, tokenize r.2 space false) :: requests options names :=
        List.filterMap_cons_some (by rw [hrequest]; rfl)
      have hothers : ∀ other ∈ names, other ∉ t.registry := by
        intro other hother
        have hne : other ≠ first := fun he => hfirst (he ▸ hother)
        rw [hregistry, AList.mem_insert]
        exact fun hmem => hmem.elim hne (hfree other hother)
      have hnone : s.sinksOf first = none :=
        congrArg (Option.map Logger.sinks) (AList.lookup_eq_none.mpr hnew)
      have hsinks : t.sinksOf name = if name = first then
          some (taken s.store (tokenize r.2 space false)) else s.sinksOf name := by
        unfold Loading.sinksOf
        rw [hregistry]
        split_ifs with hname
        · rw [hname, AList.lookup_insert]
          rfl
        · rw [AList.lookup_insert_ne hname]
      rw [ih hnodup hothers hrun, hstore, hcons, served, List.mem_cons, hsinks, Prod.mk.injEq]
      split_ifs with hname
      · rw [hname, hnone, Option.some.injEq]
        simp only [reduceCtorEq, true_and, false_or, eq_comm]
      · simp only [hname, false_and, false_or]

/-! ## The keys -/

theorem getKeysByString_eq (hash : HashOrder) (options : Options) (start : Bytes) :
    ∃ names : List Bytes, getKeysByString hash options start = names.map (start ++ ·) ∧
      names.Nodup ∧ ∀ name, name ∈ names ↔ start ++ name ∈ options := by
  have hperm : ((hash.order options.entries).map (·.1)).Perm options.keys :=
    (hash.perm options.entries).map _
  have hnodup : (getKeysByString hash options start).Nodup :=
    (hperm.nodup_iff.mpr options.nodupKeys).filter _
  have hkeys : getKeysByString hash options start =
      ((getKeysByString hash options start).map (·.drop start.length)).map (start ++ ·) := by
    rw [List.map_map]
    refine (List.map_id' _).symm.trans (List.map_congr_left ?_)
    intro key hkey
    obtain ⟨rest, rfl⟩ := List.isPrefixOf_iff_prefix.mp (List.of_mem_filter hkey)
    show _ = start ++ (start ++ rest).drop start.length
    rw [List.drop_left]
  refine ⟨_, hkeys, ?_, ?_⟩
  · rw [hkeys] at hnodup
    exact hnodup.of_map _
  · intro name
    have hmem : start ++ name ∈ getKeysByString hash options start ↔ start ++ name ∈ options := by
      rw [getKeysByString, List.mem_filter, hperm.mem_iff]
      exact and_iff_left (List.isPrefixOf_iff_prefix.mpr (List.prefix_append ..))
    rw [← hmem]
    conv_rhs => rw [hkeys]
    exact (List.mem_map_of_injective (List.append_right_injective start)).symm

/-! ## The whole configuration -/

theorem getOption_of_not_mem {key : Bytes} (h : key ∉ options) : getOption options key = [] := by
  rw [getOption, AList.lookup_eq_none.mpr h]
  rfl

theorem createdSink_of_not_mem {name : Bytes} (h : PREFIX_SINK ++ name ∉ options) :
    createdSink openFile options name = none := by
  rw [createdSink, getOption_of_not_mem h]
  rfl

theorem request_of_not_mem {name : Bytes} (h : PREFIX_LOGGER ++ name ∉ options) :
    request options name = none := by
  rw [request, getOption_of_not_mem h]
  rfl

theorem readSinksFromConfig_ok {hash : HashOrder} (hdir : s.logsDir = initLogsDir options)
    (hempty : s.sinkList = ∅)
    (h : readSinksFromConfig hash openFile options s = .ok s') :
    s'.toLog = s.toLog ∧ s'.store = createdSink openFile options := by
  obtain ⟨names, hkeys, hnodup, hmem⟩ := getKeysByString_eq hash options PREFIX_SINK
  have hfree : ∀ name, name ∉ s.sinkList := by
    intro name
    rw [hempty]
    exact AList.notMem_empty name
  have hrun : s'.toLog = s.toLog ∧ ∀ k, s'.sinkList.lookup k =
      if k ∈ names then (createdSink openFile options k).map some else s.sinkList.lookup k := by
    unfold readSinksFromConfig at h
    rw [hkeys] at h
    cases names with
    | nil =>
      obtain ⟨hlog, -, hlist⟩ := fmtLogError_ok h
      refine ⟨hlog, ?_⟩
      intro k
      rw [if_neg List.not_mem_nil, hlist]
    | cons name names =>
      obtain ⟨hlog, -, hlist⟩ := createSinks_ok hnodup hdir (fun name _ => hfree name) h
      exact ⟨hlog, hlist⟩
  refine ⟨hrun.1, ?_⟩
  funext k
  rw [Loading.store, hrun.2]
  split_ifs with hk
  · cases createdSink openFile options k with
    | none => rfl
    | some sink => rfl
  · rw [AList.lookup_eq_none.mpr (hfree k), createdSink_of_not_mem (mt (hmem k).mpr hk)]
    rfl

theorem readLoggersFromConfig_ok {hash : HashOrder} (hempty : s.registry = ∅)
    (h : readLoggersFromConfig hash options s = .ok s') :
    ∃ names : List Bytes, names.Nodup ∧
      (∀ name, name ∈ names ↔ PREFIX_LOGGER ++ name ∈ options) ∧
      ∀ name sinks, s'.sinksOf name = some sinks ↔
        (name, sinks) ∈ served s.store (requests options names) := by
  obtain ⟨names, hkeys, hnodup, hmem⟩ := getKeysByString_eq hash options PREFIX_LOGGER
  have hfree : ∀ name, name ∉ s.registry := by
    intro name
    rw [hempty]
    exact AList.notMem_empty name
  have hnone : ∀ name sinks, s.sinksOf name ≠ some sinks := by
    intro name sinks
    rw [Loading.sinksOf, AList.lookup_eq_none.mpr (hfree name)]
    exact (Option.some_ne_none sinks).symm
  refine ⟨names, hnodup, hmem, ?_⟩
  intro name sinks
  unfold readLoggersFromConfig at h
  rw [hkeys] at h
  cases names with
  | nil =>
    obtain ⟨hlog, -, -⟩ := fmtLogError_ok h
    rw [Loading.sinksOf, hlog]
    exact ⟨fun h => absurd h (hnone name sinks), fun h => absurd h List.not_mem_nil⟩
  | cons first names =>
    obtain ⟨t, hrun, h⟩ := bind_eq_ok.mp h
    have hsame : s'.toLog = t.toLog := by
      split_ifs at h
      · cases h
        rfl
      · exact (fmtLogError_ok h).1
    rw [Loading.sinksOf, hsame]
    exact (createLoggers_ok hnodup (fun name _ => hfree name) hrun name sinks).trans
      (or_iff_right (hnone name sinks))

theorem loadFromConfig_ok {hashSinks hashLoggers : HashOrder}
    (h : loadFromConfig hashSinks hashLoggers openFile options s = .ok s') :
    ∃ names : List Bytes, names.Nodup ∧
      (∀ name, name ∈ names ↔ PREFIX_LOGGER ++ name ∈ options) ∧
      ∀ name sinks, s'.sinksOf name = some sinks ↔
        (name, sinks) ∈ served (createdSink openFile options) (requests options names) := by
  obtain ⟨t, hsinks, h⟩ := bind_eq_ok.mp h
  obtain ⟨u, hloggers, h⟩ := bind_eq_ok.mp h
  cases h
  obtain ⟨hlog, hstore⟩ := readSinksFromConfig_ok rfl rfl hsinks
  have hregistry : t.registry = ∅ := congrArg Log.registry hlog
  rw [← hstore]
  obtain ⟨names, hnodup, hmem, hserved⟩ := readLoggersFromConfig_ok hregistry hloggers
  exact ⟨names, hnodup, hmem, hserved⟩

end Steps

/-! ## Which configurations give every logger its sinks -/

def namedSinks (options : Options) (name : Bytes) : List Bytes :=
  tokenize ((tokenize (getOption options (PREFIX_LOGGER ++ name)) comma true).getD 1 []) space false

def namedAvailable (openFile : OpenFile) (options : Options) (name : Bytes) : List Bytes :=
  available (createdSink openFile options) (namedSinks options name)

/-- Every registered logger has the created ones of its sinks, in order. -/
def EverySink (openFile : OpenFile) (options : Options) (s : Loading) : Prop :=
  ∀ name sinks, s.sinksOf name = some sinks →
    sinks = (namedSinks options name).filterMap (createdSink openFile options)

/-- No logger whose option has 1 modulo 256 parts names a created sink. -/
def Counted (openFile : OpenFile) (options : Options) : Prop :=
  ∀ name, (request options name).isSome →
    (tokenize (getOption options (PREFIX_LOGGER ++ name)) comma true).length % 2 ^ 8 = 1 →
      namedAvailable openFile options name = []

/-- No created sink is named twice, by one logger or by two, and the parts of the options that
name one are counted. -/
structure SinksApart (openFile : OpenFile) (options : Options) : Prop where
  once : ∀ name, (request options name).isSome → (namedAvailable openFile options name).Nodup
  apart : ∀ name other, (request options name).isSome → (request options other).isSome →
    name ≠ other →
      (namedAvailable openFile options name).Disjoint (namedAvailable openFile options other)
  counted : Counted openFile options

section Options
variable {openFile : OpenFile} {options : Options} {name : Bytes} {names : List Bytes}

theorem mem_requests {ks : List Bytes} : (name, ks) ∈ requests options names ↔
    name ∈ names ∧ ∃ r, request options name = some r ∧ tokenize r.2 space false = ks := by
  unfold requests
  rw [List.mem_filterMap]
  constructor
  · rintro ⟨other, hmem, h⟩
    obtain ⟨r, hr, he⟩ := Option.map_eq_some_iff.mp h
    cases he
    exact ⟨hmem, r, hr, rfl⟩
  · rintro ⟨hmem, r, hr, rfl⟩
    exact ⟨name, hmem, by rw [hr]; rfl⟩

theorem pairwise_requests (h : names.Nodup) :
    (requests options names).Pairwise fun r q => r.1 ≠ q.1 := by
  have hfst : ∀ {name : Bytes} {r : Bytes × List Bytes}, ((request options name).map fun r =>
      (name, tokenize r.2 space false)) = some r → r.1 = name := by
    intro name r hr
    obtain ⟨q, -, hq⟩ := Option.map_eq_some_iff.mp hr
    rw [← hq]
  unfold requests
  rw [List.pairwise_filterMap]
  apply h.imp
  intro name other hne r hr q hq
  rw [hfst hr, hfst hq]
  exact hne

theorem getPositionOptions_eq (option : Bytes) (position : Nat) :
    getPositionOptions option position =
      if (tokenize option comma true).length % 2 ^ 8 < position + 1 then []
        else (tokenize option comma true).getD position [] := rfl

theorem tokenize_request {r : LogLevel × Bytes} (h : request options name = some r) :
    tokenize r.2 space false =
      if (tokenize (getOption options (PREFIX_LOGGER ++ name)) comma true).length % 2 ^ 8 = 1
        then [] else namedSinks options name := by
  unfold request loggerOptions at h
  split_ifs at h with hempty hfew
  · cases h
  · cases h
  · cases hlevel : logLevelOf
        (getPositionOptions (getOption options (PREFIX_LOGGER ++ name)) 0) with
    | none =>
      simp only [hlevel] at h
      cases h
    | some level =>
      simp only [hlevel] at h
      cases h
      have hcount : (tokenize (getOption options (PREFIX_LOGGER ++ name)) comma true).length %
          2 ^ 8 ≠ 0 := by
        intro hzero
        rw [getPositionOptions_eq, hzero, if_pos Nat.zero_lt_one] at hlevel
        cases hlevel
      show tokenize (getPositionOptions _ 1) space false = _
      rw [getPositionOptions_eq, namedSinks]
      by_cases hone : (tokenize (getOption options (PREFIX_LOGGER ++ name)) comma true).length %
          2 ^ 8 = 1
      · rw [hone, if_pos Nat.one_lt_two, if_pos rfl]
        rfl
      · rw [if_neg hone, if_neg (by omega)]

theorem isSome_request_mem (hmem : ∀ name, name ∈ names ↔ PREFIX_LOGGER ++ name ∈ options)
    (h : (request options name).isSome) : name ∈ names := by
  rw [hmem]
  by_contra hkey
  rw [request_of_not_mem hkey] at h
  cases h

theorem exists_mem_requests (hmem : ∀ name, name ∈ names ↔ PREFIX_LOGGER ++ name ∈ options)
    (h : (request options name).isSome) :
    ∃ r, request options name = some r ∧
      (name, tokenize r.2 space false) ∈ requests options names := by
  obtain ⟨r, hr⟩ := Option.isSome_iff_exists.mp h
  exact ⟨r, hr, mem_requests.mpr ⟨isSome_request_mem hmem h, r, hr, rfl⟩⟩

theorem available_request (hcounted : Counted openFile options) {ks : List Bytes}
    (h : (name, ks) ∈ requests options names) :
    available (createdSink openFile options) ks = namedAvailable openFile options name := by
  obtain ⟨-, r, hr, rfl⟩ := mem_requests.mp h
  rw [tokenize_request hr]
  split_ifs with hone
  · exact (hcounted name (Option.isSome_iff_exists.mpr ⟨r, hr⟩) hone).symm
  · rfl

theorem nodup_requests_iff (hnodup : names.Nodup)
    (hmem : ∀ name, name ∈ names ↔ PREFIX_LOGGER ++ name ∈ options)
    (hcounted : Counted openFile options) :
    (available (createdSink openFile options) ((requests options names).flatMap (·.2))).Nodup ↔
      SinksApart openFile options := by
  have hflat : available (createdSink openFile options) ((requests options names).flatMap (·.2)) =
      (requests options names).flatMap fun r => namedAvailable openFile options r.1 := by
    unfold available
    rw [List.filter_flatMap]
    apply List.flatMap_congr
    rintro ⟨name, ks⟩ hr
    exact available_request hcounted hr
  rw [hflat, nodup_flatMap_keyed (pairwise_requests hnodup)]
  have hsome : ∀ r ∈ requests options names, (request options r.1).isSome := by
    rintro ⟨name, ks⟩ hr
    obtain ⟨-, r, hr, -⟩ := mem_requests.mp hr
    exact Option.isSome_iff_exists.mpr ⟨r, hr⟩
  constructor
  · rintro ⟨honce, hapart⟩
    refine ⟨?_, ?_, hcounted⟩
    · intro name hname
      obtain ⟨r, -, hr⟩ := exists_mem_requests hmem hname
      exact honce (name, _) hr
    · intro name other hname hother hne
      obtain ⟨r, -, hr⟩ := exists_mem_requests hmem hname
      obtain ⟨q, -, hq⟩ := exists_mem_requests hmem hother
      exact hapart (name, _) hr (other, _) hq hne
  · intro h
    constructor
    · exact fun r hr => h.once r.1 (hsome r hr)
    · exact fun r hr q hq hne => h.apart r.1 q.1 (hsome r hr) (hsome q hq) hne

theorem filterMap_request (hcounted : Counted openFile options) {ks : List Bytes}
    (h : (name, ks) ∈ requests options names) :
    ks.filterMap (createdSink openFile options) =
      (namedSinks options name).filterMap (createdSink openFile options) := by
  rw [← filterMap_available, available_request hcounted h, namedAvailable, filterMap_available]

section Loaded
variable {s' : Loading} (hmem : ∀ name, name ∈ names ↔ PREFIX_LOGGER ++ name ∈ options)
  (hserved : ∀ name sinks, s'.sinksOf name = some sinks ↔
    (name, sinks) ∈ served (createdSink openFile options) (requests options names))
include hmem hserved

theorem counted_of_everySink (h : EverySink openFile options s') : Counted openFile options := by
  intro name hname hone
  obtain ⟨r, hr, hrequest⟩ := exists_mem_requests hmem hname
  have hfst : name ∈
      (served (createdSink openFile options) (requests options names)).map (·.1) := by
    rw [map_fst_served]
    exact List.mem_map_of_mem hrequest
  obtain ⟨⟨name, sinks⟩, hin, rfl⟩ := List.mem_map.mp hfst
  obtain ⟨ks, hks, hle⟩ := length_le_of_mem_served hin
  obtain ⟨-, q, hq, rfl⟩ := mem_requests.mp hks
  rw [tokenize_request hq, if_pos hone] at hle
  have hnil : sinks = [] := List.eq_nil_of_length_eq_zero (Nat.le_zero.mp hle)
  have hsinks := h name sinks ((hserved name sinks).mpr hin)
  exact available_eq_nil_iff.mpr (hsinks.symm.trans hnil)

theorem served_of_everySink (h : EverySink openFile options s') :
    served (createdSink openFile options) (requests options names) =
      (requests options names).map fun r => (r.1, r.2.filterMap (createdSink openFile options)) := by
  have hcounted := counted_of_everySink hmem hserved h
  have hpair : ∀ p ∈ served (createdSink openFile options) (requests options names),
      (p.1, (namedSinks options p.1).filterMap (createdSink openFile options)) = p := by
    rintro ⟨name, sinks⟩ hin
    rw [h name sinks ((hserved name sinks).mpr hin)]
  calc served (createdSink openFile options) (requests options names)
      = ((served (createdSink openFile options) (requests options names)).map (·.1)).map
          fun name => (name, (namedSinks options name).filterMap (createdSink openFile options)) := by
        rw [List.map_map]
        exact ((List.map_congr_left hpair).trans (List.map_id' _)).symm
    _ = _ := by
        rw [map_fst_served, List.map_map]
        apply List.map_congr_left
        rintro ⟨name, ks⟩ hr
        exact congrArg (Prod.mk name) (filterMap_request hcounted hr).symm

end Loaded
end Options

def consoleFor (loggers : List Bytes) : Options :=
  loggers.foldl (fun options name => options.insert (PREFIX_LOGGER ++ name) (ascii "2,Console"))
    (AList.singleton (ascii "Sink.Console") (ascii "0,2,%v"))

def unloaded : Loading := ⟨⟨∅, .critical⟩, [], ∅, []⟩

def consoleSink : Sink := ⟨ascii "Console", .info, ascii "%v", .console⟩

def loadedSinks (options : Options) (name other : Bytes) :
    Option (Option (List Sink) × Option (List Sink)) :=
  (loadFromConfig .listed .listed (fun _ => .ok ()) options unloaded).toOption.map fun s =>
    (s.sinksOf name, s.sinksOf other)

theorem exists_of_loadedSinks {options : Options} {name other : Bytes}
    {sinks : Option (List Sink) × Option (List Sink)}
    (h : loadedSinks options name other = some sinks) :
    ∃ s, loadFromConfig .listed .listed (fun _ => .ok ()) options unloaded = .ok s ∧
      s.sinksOf name = sinks.1 ∧ s.sinksOf other = sinks.2 := by
  obtain ⟨s, hs, rfl⟩ := Option.map_eq_some_iff.mp h
  cases hload : loadFromConfig .listed .listed (fun _ => .ok ()) options unloaded with
  | error e =>
    rw [hload] at hs
    cases hs
  | ok t =>
    rw [hload] at hs
    cases hs
    exact ⟨s, rfl, rfl, rfl⟩

/-- After loading, every logger has all its created sinks if and only if no sink is wanted
twice, in whatever order the options were walked. -/
theorem every_sink_iff (hashSinks hashLoggers : HashOrder) (openFile : OpenFile)
    (options : Options) (s s' : Loading)
    (h : loadFromConfig hashSinks hashLoggers openFile options s = .ok s') :
    EverySink openFile options s' ↔ SinksApart openFile options := by
  obtain ⟨names, hnodup, hmem, hserved⟩ := loadFromConfig_ok h
  constructor
  · intro hevery
    have hcounted := counted_of_everySink hmem hserved hevery
    rw [← nodup_requests_iff hnodup hmem hcounted, ← served_eq_iff]
    exact served_of_everySink hmem hserved hevery
  · intro hapart name sinks hsinks
    have hin := (hserved name sinks).mp hsinks
    rw [served_of_nodup ((nodup_requests_iff hnodup hmem hapart.counted).mpr hapart)] at hin
    obtain ⟨⟨name, ks⟩, hr, he⟩ := List.mem_map.mp hin
    cases he
    exact filterMap_request hapart.counted hr

theorem every_sink_iff_root :
    ∃ s, loadFromConfig .listed .listed (fun _ => .ok ()) (consoleFor [LOGGER_ROOT]) unloaded =
        .ok s ∧
      (EverySink (fun _ => .ok ()) (consoleFor [LOGGER_ROOT]) s ↔
        SinksApart (fun _ => .ok ()) (consoleFor [LOGGER_ROOT])) := by
  have h : loadedSinks (consoleFor [LOGGER_ROOT]) LOGGER_ROOT (ascii "server") =
      some (some [consoleSink], none) := by decide +kernel
  obtain ⟨s, hload, -⟩ := exists_of_loadedSinks h
  exact ⟨s, hload, every_sink_iff .listed .listed _ _ unloaded s hload⟩

/-- Two loggers name the console, and the second to be made does not get it. -/
theorem console_taken_once :
    ∃ s, loadFromConfig .listed .listed (fun _ => .ok ())
        (consoleFor [LOGGER_ROOT, ascii "server"]) unloaded = .ok s ∧
      s.sinksOf (ascii "server") = some [consoleSink] ∧ s.sinksOf LOGGER_ROOT = some [] ∧
      namedSinks (consoleFor [LOGGER_ROOT, ascii "server"]) LOGGER_ROOT = [ascii "Console"] ∧
      ¬EverySink (fun _ => .ok ()) (consoleFor [LOGGER_ROOT, ascii "server"]) s := by
  have h : loadedSinks (consoleFor [LOGGER_ROOT, ascii "server"]) (ascii "server") LOGGER_ROOT =
      some (some [consoleSink], some []) := by decide +kernel
  have hcreated : (namedSinks (consoleFor [LOGGER_ROOT, ascii "server"]) LOGGER_ROOT).filterMap
      (createdSink (fun _ => .ok ()) (consoleFor [LOGGER_ROOT, ascii "server"])) =
        [consoleSink] := by decide +kernel
  obtain ⟨s, hload, hserver, hroot⟩ := exists_of_loadedSinks h
  refine ⟨s, hload, hserver, hroot, by decide +kernel, ?_⟩
  intro hevery
  have hnil := hevery LOGGER_ROOT [] hroot
  rw [hcreated] at hnil
  cases hnil

end Warhead.Log
