import WarheadFix.Server.Arrivals

/-! When only received bytes count. `ReadHandler` looks at the whole storage; as long as what it
looks for is found, or refused, inside the active bytes, what lies behind them is without
effect. A logon is the exception, since its answer is made of the storage. -/

namespace Warhead.AuthSession
open Lib Hffix

/-- What one `ReadHandler` does: the handlers it calls and how they end, whether the socket is
closed then, the reads it leaves outstanding and how it returns. -/
structure Response where
  calls : List (Bytes × Result Bool)
  closed : Bool
  reads : List ReadRequest
  result : Result Unit
  deriving DecidableEq

def responseOf (s : AuthSession) (x : AuthSession × Result Unit) : Response where
  calls := (x.1.handled.drop s.handled.length).map fun r => (r.key, r.result)
  closed := x.1.closed
  reads := x.1.reads
  result := x.2

def response (env : Env) (s : AuthSession) : Response := s.responseOf (s.readHandler env)

def replies (env : Env) (s : AuthSession) : List MessageBuffer :=
  (s.readHandler env).1.queued.drop s.queued.length

/-- The checks, and the reading of the fields that may follow them, end inside these bytes. -/
def ReadsWithin (status : AuthStatus) (env : Env) (data : Bytes) : Prop :=
  match decisionOf status 0 4096 data with
  | .error .undefined => False
  | .ok (.run key) => FixMessage.readingFor key env.shouldLog data 4096 ≠ .error .undefined
  | _ => True

instance (status : AuthStatus) (env : Env) (data : Bytes) :
    Decidable (ReadsWithin status env data) := by
  unfold ReadsWithin
  split <;> infer_instance

/-- A logon is accepted only out of a block that is full. -/
def LogonFills (status : AuthStatus) (env : Env) (data : Bytes) : Prop :=
  decisionOf status 0 4096 data = .ok (.run (ascii "A")) →
    FixMessage.readingFor (ascii "A") env.shouldLog data 4096 = .ok .read → data.length = 4096

section Within
variable {env : Env} {s s' : AuthSession} {p q : Process} {key data : Bytes}
  {status : AuthStatus}

theorem ReadsWithin.decision (h : ReadsWithin status env data) :
    decisionOf status 0 4096 data ≠ .error .undefined := by
  intro he
  unfold ReadsWithin at h
  rw [he] at h
  exact h

theorem ReadsWithin.reading (h : ReadsWithin status env data)
    (hd : decisionOf status 0 4096 data = .ok (.run key)) :
    FixMessage.readingFor key env.shouldLog data 4096 ≠ .error .undefined := by
  unfold ReadsWithin at h
  rw [hd] at h
  exact h

theorem Reading.active_begins (hu : s.Reading) : s.readBuffer.active <+: s.readBuffer.storage := by
  rw [MessageBuffer.active_of_rpos_zero hu.rpos]
  exact List.take_prefix _ _

theorem Reading.decision_eq (hu : s.Reading)
    (h : ReadsWithin s.status env s.readBuffer.active) :
    s.decision = decisionOf s.status 0 4096 s.readBuffer.active := by
  unfold AuthSession.decision
  rw [hu.rpos, hu.storage]
  exact stable_decisionOf s.status 0 4096 hu.active_begins h.decision

theorem Reading.reading_eq (hu : s.Reading) (h : ReadsWithin s.status env s.readBuffer.active)
    (hd : s.decision = .ok (.run key)) :
    s.reading key env = FixMessage.readingFor key env.shouldLog s.readBuffer.active 4096 := by
  unfold AuthSession.reading
  rw [hu.storage]
  exact stable_readingFor key env.shouldLog 4096 hu.active_begins
    (h.reading ((hu.decision_eq h).symm.trans hd))

end Within

section Responses
variable {env : Env} {s s' : AuthSession} {key : Bytes} {x : AuthSession × Result Unit}

def Response.of (env : Env) (decision : Result Decision)
    (reading : Bytes → Result FixMessage.Reading) : Response :=
  match decision with
  | .error f => ⟨[], false, [], .error f⟩
  | .ok (.unsupportProtocol _) => ⟨[], true, [], .ok ()⟩
  | .ok (.unknownCommand _) => ⟨[], false, [], .ok ()⟩
  | .ok .wrongStatus => ⟨[], true, [], .ok ()⟩
  | .ok (.run key) =>
    match reading key with
    | .error f => ⟨[(key, .error f)], false, [], .error f⟩
    | .ok .read =>
      match if key = ascii "A" then FixMessage.reply env [] else .ok .new with
      | .error f => ⟨[(key, .error f)], false, [], .error f⟩
      | .ok _ => ⟨[(key, .ok true)], false, [⟨0, 4096⟩], .ok ()⟩
    | .ok _ => ⟨[(key, .ok false)], true, [], .ok ()⟩

theorem Exits.responseOf_eq (hu : s.Reading) (hx : Exits env s x) :
    s.responseOf x = Response.of env s.decision fun key => s.reading key env := by
  unfold responseOf Response.of
  cases hx with
  | fault h => simp [h, hu.closed, hu.reads]
  | unsupportProtocol h =>
    simp [h, closeSocket, Socket.closeSocket_closed, logErrors, hu.reads]
  | unknownCommand h => simp [h, logErrors, hu.closed, hu.reads]
  | wrongStatus h => simp [h, closeSocket, Socket.closeSocket_closed, hu.reads]
  | handlerFault h hr =>
    cases hr with
    | fault hread => simp [h, hread, noteRun, hu.closed, hu.reads]
    | replyFault hread hreply =>
      simp [h, hread, reply_error hreply [], noteRun, hu.closed, hu.reads]
  | rejected h hr =>
    cases hr with
    | failed hread =>
      simp [h, hread, closeSocket, Socket.closeSocket_closed, noteRun, logErrors, hu.reads]
  | accepted h hr =>
    rw [(hu.ran hr).asyncRead_eq]
    cases hr with
    | order hread =>
      have hkey : ascii "D" ≠ ascii "A" := by decide
      simp [h, hread, hkey, noteRun, hu.closed]
    | logon hread hreply =>
      cases hnil : FixMessage.reply env [] with
      | error f => cases (reply_error hnil _).symm.trans hreply
      | ok packet => simp [h, hread, noteRun, Socket.queuePacket, hu.closed]

def repliesOf (env : Env) (mem : Bytes) (decision : Result Decision)
    (reading : Bytes → Result FixMessage.Reading) : List MessageBuffer :=
  if decision = .ok (.run (ascii "A")) ∧ reading (ascii "A") = .ok .read then
    (FixMessage.reply env mem).toOption.toList
  else []

theorem Exits.replies_eq (hu : s.Reading) (hx : Exits env s x) :
    x.1.queued.drop s.queued.length =
      repliesOf env s.readBuffer.storage s.decision fun key => s.reading key env := by
  unfold repliesOf
  cases hx with
  | fault h => simp [h]
  | unsupportProtocol h => simp [h, closeSocket, logErrors]
  | unknownCommand h => simp [h, logErrors]
  | wrongStatus h => simp [h, closeSocket]
  | handlerFault h hr =>
    cases hr with
    | fault hread =>
      rw [if_neg]
      · simp [noteRun]
      · rintro ⟨hd, hok⟩
        obtain rfl := Decision.run.inj (Except.ok.inj (h.symm.trans hd))
        cases hread.symm.trans hok
    | replyFault hread hreply =>
      rw [if_pos ⟨h, hread⟩, hreply]
      simp [noteRun, Except.toOption]
  | rejected h hr =>
    cases hr with
    | failed hread =>
      rw [if_neg]
      · simp [closeSocket, noteRun, logErrors]
      · rintro ⟨hd, hok⟩
        obtain rfl := Decision.run.inj (Except.ok.inj (h.symm.trans hd))
        exact absurd (hread.symm.trans hok) (by simp)
  | accepted h hr =>
    rw [(hu.ran hr).asyncRead_eq]
    cases hr with
    | order =>
      rw [if_neg (by rw [h]; exact fun hd => absurd hd.1 (by decide))]
      simp [noteRun]
    | logon hread hreply =>
      rw [if_pos ⟨h, hread⟩, hreply]
      simp [noteRun, Socket.queuePacket, Except.toOption]

theorem Response.of_congr {d : Result Decision} {r r' : Bytes → Result FixMessage.Reading}
    (h : ∀ key, d = .ok (.run key) → r key = r' key) : Response.of env d r = .of env d r' := by
  unfold Response.of
  split
  · rfl
  · rfl
  · rfl
  · rfl
  · rw [h _ rfl]

theorem response_eq (hu : s.Reading) (hu' : s'.Reading) (hs : s'.status = s.status)
    (ha : s'.readBuffer.active = s.readBuffer.active)
    (h : ReadsWithin s.status env s.readBuffer.active) : s'.response env = s.response env := by
  have h' : ReadsWithin s'.status env s'.readBuffer.active := by rw [hs, ha]; exact h
  have hd : s'.decision = s.decision := by
    rw [hu.decision_eq h, hu'.decision_eq h', hs, ha]
  have hx := (readHandler_exits env hu.isOpen).responseOf_eq hu
  have hx' := (readHandler_exits env hu'.isOpen).responseOf_eq hu'
  unfold response
  rw [hx, hx', hd]
  refine Response.of_congr fun key hkey => ?_
  rw [hu.reading_eq h hkey, hu'.reading_eq h' (hd.trans hkey), ha]

theorem replies_eq (hu : s.Reading) (hu' : s'.Reading) (hs : s'.status = s.status)
    (ha : s'.readBuffer.active = s.readBuffer.active)
    (h : ReadsWithin s.status env s.readBuffer.active)
    (hf : LogonFills s.status env s.readBuffer.active) : s'.replies env = s.replies env := by
  have h' : ReadsWithin s'.status env s'.readBuffer.active := by rw [hs, ha]; exact h
  have hd : s'.decision = s.decision := by
    rw [hu.decision_eq h, hu'.decision_eq h', hs, ha]
  unfold replies
  rw [(readHandler_exits env hu.isOpen).replies_eq hu,
    (readHandler_exits env hu'.isOpen).replies_eq hu', hd]
  unfold repliesOf
  by_cases hrun : s.decision = .ok (.run (ascii "A"))
  · have hr : s'.reading (ascii "A") env = s.reading (ascii "A") env := by
      rw [hu.reading_eq h hrun, hu'.reading_eq h' (hd.trans hrun), ha]
    simp only [hr]
    split_ifs with hboth
    · have hfull : s.readBuffer.active.length = 4096 :=
        hf ((hu.decision_eq h).symm.trans hrun) ((hu.reading_eq h hrun).symm.trans hboth.2)
      have hstorage := hu.active_begins.eq_of_length (by rw [hfull, hu.storage])
      have hstorage' := hu'.active_begins.eq_of_length (by rw [ha, hfull, hu'.storage])
      rw [← hstorage, ← hstorage', ha]
    · rfl
  · rw [if_neg fun hboth => hrun hboth.1, if_neg fun hboth => hrun hboth.1]

end Responses

section Runs
variable {env : Env} {s s' : AuthSession} {p q : Process} {e : Event} {es : List Event}

def deliveries : List Event → List Bytes
  | [] => []
  | .readCompletion _ data :: es => data :: deliveries es
  | _ :: es => deliveries es

def StepWithin (p : Process) : Event → Prop
  | .readCompletion env data => ReadsWithin p.session.status env data
  | _ => True

theorem handled_step (hi : Inv p) (h : step p e = some q) :
    ∃ runs, q.session.handled = p.session.handled ++ runs ∧
      (runs.map HandlerRun.received).Sublist (deliveries [e]) := by
  have hsame (h : q.session.handled = p.session.handled) :
      ∃ runs, q.session.handled = p.session.handled ++ runs ∧
        (runs.map HandlerRun.received).Sublist (deliveries [e]) :=
    ⟨[], by rw [h, List.append_nil], List.nil_sublist _⟩
  cases hi.steps h with
  | @received env data ha _ _ hlen =>
    have hu := ha.delivered hlen
    rw [after_session] at hsame ⊢
    rcases (readHandler_exits env hu.isOpen).handled with ⟨hnone, -⟩ | ⟨key, result, -, hone⟩
    · exact hsame hnone
    · refine ⟨_, hone, ?_⟩
      change [(p.session.delivered data).readBuffer.active].Sublist [data]
      rw [active_delivered]
  | readFailed => exact hsame rfl
  | wrote => exact hsame rfl

theorem deliveries_cons (e : Event) (es : List Event) :
    deliveries (e :: es) = deliveries [e] ++ deliveries es := by
  cases e <;> rfl

theorem handled_advance (hi : Inv p) (e : Event) :
    ∃ runs, (advance p e).session.handled = p.session.handled ++ runs ∧
      (runs.map HandlerRun.received).Sublist (deliveries [e]) := by
  unfold advance
  cases h : step p e with
  | none => exact ⟨[], (List.append_nil _).symm, List.nil_sublist _⟩
  | some q => exact handled_step hi h

theorem handled_foldl (hi : Inv p) (es : List Event) :
    ∃ runs, (es.foldl advance p).session.handled = p.session.handled ++ runs ∧
      (runs.map HandlerRun.received).Sublist (deliveries es) := by
  induction es generalizing p with
  | nil => exact ⟨[], (List.append_nil _).symm, List.nil_sublist _⟩
  | cons e es ih =>
    obtain ⟨runs, hruns, hsub⟩ := handled_advance hi e
    obtain ⟨rest, hrest, hsub'⟩ := ih (inv_advance hi e)
    refine ⟨runs ++ rest, by rw [List.foldl_cons, hrest, hruns, List.append_assoc], ?_⟩
    rw [List.map_append, deliveries_cons]
    exact hsub.append hsub'

theorem handled_run (hi : Inv p) (h : system.runFrom p es = some q) :
    ∃ runs, q.session.handled = p.session.handled ++ runs ∧
      (runs.map HandlerRun.received).Sublist (deliveries es) := by
  rw [← foldl_advance_of_runFrom h]
  exact handled_foldl hi es

/-- Every handler has found its message in the bytes of its own read. -/
def HandledWithin (p : Process) : Prop :=
  ∀ r ∈ p.session.handled, FixMessage.commandOf r.received 4096 = .ok r.key

theorem handledWithin_step (hi : Inv p) (hw : HandledWithin p) (hC : StepWithin p e)
    (h : step p e = some q) : HandledWithin q := by
  cases hi.steps h with
  | @received env data ha _ _ hlen =>
    have hu := ha.delivered hlen
    unfold HandledWithin
    rw [after_session]
    rcases (readHandler_exits env hu.isOpen).handled with ⟨hnone, -⟩ | ⟨key, result, hd, hone⟩
    · rw [hnone]
      exact hw
    · have hwithin : ReadsWithin (p.session.delivered data).status env
          (p.session.delivered data).readBuffer.active := by
        rw [active_delivered]
        exact hC
      rw [hu.decision_eq hwithin] at hd
      rw [hone]
      refine List.forall_mem_append.mpr ⟨hw, List.forall_mem_singleton.mpr ?_⟩
      exact (decisionOf_run.mp hd).2.1
  | readFailed => exact hw
  | wrote => exact hw

/-- Where the checks end inside the bytes received, these alone decide the response, and the
reply if no logon is accepted out of a part of the block; and in a run of such reads the
handlers have run on the bytes of different reads, each on a message found in them. -/
theorem only_received_bytes_count (s s' : AuthSession) (env : Env) (es : List Event)
    (q : Process) :
    (s.Reading → s'.Reading → s'.status = s.status →
      s'.readBuffer.active = s.readBuffer.active →
      ReadsWithin s.status env s.readBuffer.active →
        s'.response env = s.response env ∧
        (LogonFills s.status env s.readBuffer.active → s'.replies env = s.replies env)) ∧
    (system.runFrom system.start es = some q → system.Along StepWithin system.start es →
      (q.session.handled.map HandlerRun.received).Sublist (deliveries es) ∧ HandledWithin q) := by
  constructor
  · intro hu hu' hs ha h
    exact ⟨response_eq hu hu' hs ha h, replies_eq hu hu' hs ha h⟩
  · intro hrun hC
    obtain ⟨runs, hruns, hsub⟩ := handled_run armed_start.inv hrun
    have hstart : Inv system.start ∧ HandledWithin system.start := ⟨armed_start.inv, fun _ => nofun⟩
    have hstep : ∀ p e q, Inv p ∧ HandledWithin p → StepWithin p e → system.step p e = some q →
        Inv q ∧ HandledWithin q :=
      fun p e q hp hC hq => ⟨hp.1.step hq, handledWithin_step hp.1 hp.2 hC hq⟩
    refine ⟨?_, (System.Along.invariant hstep hstart hC hrun).2⟩
    rw [hruns]
    exact hsub

def holding (data leftover : Bytes) : AuthSession :=
  { new with status := .authed, readBuffer := ⟨data.length, 0, data ++ leftover⟩ }

theorem holding_reading {data leftover : Bytes} (h : data.length + leftover.length = 4096) :
    (holding data leftover).Reading :=
  ⟨rfl, rfl, rfl, rfl, by simpa [holding] using h⟩

theorem active_holding (data leftover : Bytes) :
    (holding data leftover).readBuffer.active = data := by
  rw [MessageBuffer.active_of_rpos_zero rfl]
  exact List.take_left

theorem only_received_bytes_count_order :
    ((holding (fixText sampleOrder) (List.replicate 4070 255)).response sampleEnv =
        (holding (fixText sampleOrder) (List.replicate 4070 0)).response sampleEnv ∧
      (holding (fixText sampleOrder) (List.replicate 4070 255)).replies sampleEnv =
        (holding (fixText sampleOrder) (List.replicate 4070 0)).replies sampleEnv) ∧
    ∃ q, system.runFrom system.start [.readCompletion sampleEnv (fixText sampleLogon)] = some q ∧
      (q.session.handled.map HandlerRun.received).Sublist [fixText sampleLogon] ∧
      HandledWithin q := by
  have hu (b : UInt8) : (holding (fixText sampleOrder) (List.replicate 4070 b)).Reading :=
    holding_reading (by rw [List.length_replicate]; decide)
  have hwithin : ReadsWithin .authed sampleEnv (fixText sampleOrder) := by decide +kernel
  constructor
  · obtain ⟨hresponse, hreplies⟩ := (only_received_bytes_count _ _ sampleEnv [] system.start).1
      (hu 0) (hu 255) rfl (by rw [active_holding, active_holding])
      (by rw [active_holding]; exact hwithin)
    refine ⟨hresponse, hreplies ?_⟩
    rw [active_holding]
    intro hd
    exact absurd hd (by decide +kernel)
  · have hstep := armed_start.step_received sampleEnv (fixText sampleLogon) (by decide)
      (by decide)
    have hrun := runFrom_one hstep
    have hC : system.Along StepWithin ⟨new.start, none⟩
        [.readCompletion sampleEnv (fixText sampleLogon)] :=
      fun _ _ => ⟨show ReadsWithin .notAuthed sampleEnv (fixText sampleLogon) by decide +kernel,
        trivial⟩
    exact ⟨_, hrun, (only_received_bytes_count new new sampleEnv _ _).2 hrun hC⟩

theorem Armed.decision_take {f : Frame} {tail : Bytes} (h : s.Armed)
    (hs : statusFor f.msgType = some s.status) (hstorage : s.readBuffer.storage = fixText f ++ tail)
    {n : Nat} (hn : n ≤ (fixText f).length) :
    (s.delivered ((fixText f).take n)).decision = .ok (.run f.msgType) := by
  have hlen : (fixText f).length ≤ 4096 := by
    rw [← h.storage, hstorage, List.length_append]
    exact Nat.le_add_right _ _
  have htake : ((fixText f).take n).length = n := List.length_take_of_le hn
  have hoverlay : s.overlay ((fixText f).take n) = fixText f ++ tail := by
    rw [overlay, hstorage, htake, List.drop_append_of_le_length hn, ← List.append_assoc,
      List.take_append_drop]
  unfold AuthSession.decision
  change decisionOf s.status 0 (s.overlay _).length (s.overlay _) = _
  rw [h.length_overlay (by omega), hoverlay]
  exact decisionOf_fixText hs hlen (by decide)

/-- The second read runs the order's handler, and the third, of one byte, runs it again; and
the same byte in front of zeros runs nothing. -/
theorem order_repeats :
    (∃ q, system.runFrom system.start [.readCompletion sampleEnv (fixText sampleLogon),
        .readCompletion sampleEnv (fixText sampleOrder), .readCompletion sampleEnv (ascii "8")] =
          some q ∧
      q.session.handled.map (fun r => (r.key, r.received)) = [(ascii "A", fixText sampleLogon),
        (ascii "D", fixText sampleOrder), (ascii "D", ascii "8")]) ∧
    (holding (ascii "8") ((fixText sampleOrder).drop 1 ++ List.replicate 4070 0)).response
        sampleEnv ≠
      (holding (ascii "8") (List.replicate 4095 0)).response sampleEnv := by
  refine ⟨?_, by decide +kernel⟩
  obtain ⟨t, ht, harmed, hauthed, -, hhandled⟩ := armed_start.arrives (f := sampleLogon)
    sampleEnv rfl (by decide) (by decide +kernel)
  obtain ⟨u, hu, harmed', hauthed', hstorage, hhandled'⟩ := harmed.arrives (f := sampleOrder)
    sampleEnv (by rw [hauthed]; rfl) (by decide) (accepts_in_front
      (fixText sampleOrder) (List.prefix_append _ _)
      (by rw [harmed.length_overlay (by decide)]; decide +kernel) (fun h => absurd h (by decide)))
  have hlast := harmed'.step_received sampleEnv (ascii "8") (by decide) (by decide)
  have hd : (u.delivered (ascii "8")).decision = .ok (.run (ascii "D")) :=
    harmed'.decision_take (f := sampleOrder) (n := 1) (by rw [hauthed']; rfl) hstorage (by decide)
  refine ⟨_, runFrom_step ht (runFrom_step hu (runFrom_one hlast)), ?_⟩
  rw [after_session]
  rcases (readHandler_exits sampleEnv (harmed'.isOpen_delivered _)).handled with
    ⟨-, hnone⟩ | ⟨key, result, hkey, hone⟩
  · exact absurd hd (hnone _)
  · obtain rfl := Decision.run.inj (Except.ok.inj (hd.symm.trans hkey))
    have hsame : (u.delivered (ascii "8")).handled = u.handled := rfl
    rw [hone, hsame, hhandled', hhandled]
    simp only [List.map_append, List.map_cons, List.map_nil, HandlerRun.received,
      active_delivered]
    rfl

end Runs
end Warhead.AuthSession
