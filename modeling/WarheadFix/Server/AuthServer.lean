import WarheadFix.Lib.Parties
import WarheadFix.Server.Listening
import WarheadFix.Shared.NetworkThread

/-! The server with all its clients: the accepting thread, which starts a session and hands it
over, and the one network thread, on which the callbacks of the sessions and the ticks run one
after the other. A fault in a callback is not caught, and ends the server. -/

namespace Warhead
open Lib

/-- The network thread and the sessions, the sockets of which are in the thread; `opening` is
the session that `OnSocketOpen` has started and not yet added, `failure` the fault that has
ended the server and the client in whose callback it was. -/
structure AuthServer (ι : Type) extends NetworkThread ι where
  status : ι → AuthStatus
  handled : ι → List HandlerRun
  log : ι → List LogLine
  opening : Option ι
  failure : Option (ι × Fault Exn)

namespace AuthSession
variable {env : Env} {s : AuthSession} {p q : Process}

theorem Ran.ages {key : Bytes} {x : AuthSession × Result Bool} (h : Ran env s key x) :
    Socket.Ages s.toSocket x.1.toSocket := by
  cases h <;> exact Socket.ages_of_flags rfl rfl rfl

theorem Exits.ages {x : AuthSession × Result Unit} (h : Exits env s x) :
    Socket.Ages s.toSocket x.1.toSocket := by
  cases h with
  | fault => exact Socket.ages_of_flags rfl rfl rfl
  | unsupportProtocol => exact Socket.ages_closeSocket _
  | unknownCommand => exact Socket.ages_of_flags rfl rfl rfl
  | wrongStatus => exact Socket.ages_closeSocket _
  | handlerFault _ hr => exact hr.ages
  | rejected _ hr => exact hr.ages.trans (Socket.ages_closeSocket _)
  | accepted _ hr =>
    refine hr.ages.trans ?_
    unfold AuthSession.asyncRead Socket.asyncRead
    dsimp only
    split_ifs <;> exact Socket.ages_of_flags rfl rfl rfl

theorem ages_step {e : Event} (hi : Inv p) (h : step p e = some q) :
    Socket.Ages p.session.toSocket q.session.toSocket := by
  cases hi.steps h with
  | @received env data ha _ _ hlen =>
    have hdelivered : Socket.Ages p.session.toSocket (p.session.delivered data).toSocket :=
      Socket.ages_of_flags rfl rfl rfl
    rw [after_session]
    exact hdelivered.trans (readHandler_exits env (ha.delivered hlen).isOpen).ages
  | readFailed =>
    have hreads : Socket.Ages p.session.toSocket { p.session with reads := [] }.toSocket :=
      Socket.ages_of_flags rfl rfl rfl
    exact hreads.trans (Socket.ages_closeSocket _)
  | wrote _ hw => exact hw.toAges

theorem inv_new : Inv ⟨new, none⟩ := ⟨.inl rfl, rfl, rfl, length_resized _ _⟩

theorem ages_start : Socket.Ages Socket.new new.start.toSocket :=
  Socket.ages_of_flags rfl armed_start.closed rfl

end AuthSession

namespace NetworkThread
variable {ι : Type}

theorem socket_foldl_addNewSocket (is : List ι) (u : NetworkThread ι) :
    (is.foldl addNewSocket u).socket = u.socket := by
  induction is generalizing u with
  | nil => rfl
  | cons i is ih =>
    rw [List.foldl_cons, ih]
    unfold addNewSocket
    split_ifs <;> rfl

end NetworkThread

namespace AuthServer
variable {ι : Type}

def new : AuthServer ι :=
  { NetworkThread.new with
    status := fun _ => .notAuthed
    handled := fun _ => []
    log := fun _ => []
    opening := none
    failure := none }

def session (s : AuthServer ι) (i : ι) : AuthSession :=
  { s.socket i with status := s.status i, handled := s.handled i, log := s.log i }

def Opened (s : AuthServer ι) (i : ι) : Prop := i ∈ s.added ∨ s.opening = some i

section Steps
variable [DecidableEq ι]

def fault (s : AuthServer ι) (i : ι) : Option (Fault Exn) :=
  s.failure.bind fun f => if f.1 = i then some f.2 else none

def client (s : AuthServer ι) (i : ι) : AuthSession.Process := ⟨s.session i, s.fault i⟩

def setSession (s : AuthServer ι) (i : ι) (a : AuthSession) : AuthServer ι :=
  { s with
    toNetworkThread := s.toNetworkThread.setSocket i a.toSocket
    status := Function.update s.status i a.status
    handled := Function.update s.handled i a.handled
    log := Function.update s.log i a.log }

def setClient (s : AuthServer ι) (i : ι) (p : AuthSession.Process) : AuthServer ι :=
  { s.setSession i p.session with failure := p.failure.map (i, ·) }

def setThread (s : AuthServer ι) (t : NetworkThread ι) : AuthServer ι :=
  { s with toNetworkThread := t }

inductive Event (ι : Type) where
  | socketOpen (i : ι)
  | addSocket
  | callback (i : ι) (e : AuthSession.Event)
  | updateBegins
  | updateSocket (i : ι) (net : Net)
  | updateEnds

/-- The accepting thread goes on during a tick; the callbacks do not. The update of a session is
part of a tick, and of the session whose turn it is. -/
def step (s : AuthServer ι) (e : Event ι) : Option (AuthServer ι) :=
  if s.failure.isSome then none
  else
    match e with
    | .socketOpen i =>
      if s.opening.isSome ∨ i ∈ s.added then none
      else some { s.setSession i AuthSession.new.start with opening := some i }
    | .addSocket => s.opening.bind fun i =>
      (s.toNetworkThread.step (.addSocket i)).map fun t => { s.setThread t with opening := none }
    | .callback _ (.update _) => none
    | .callback i e =>
      if s.sweep.isSome then none else (AuthSession.step (s.client i) e).map (s.setClient i)
    | .updateBegins => (s.toNetworkThread.step .updateBegins).map s.setThread
    | .updateSocket i net => s.sweep.bind fun cursor =>
      if s.sockets[cursor]? = some i then
        (s.toNetworkThread.updateSocket net cursor i).map s.setThread
      else none
    | .updateEnds => (s.toNetworkThread.step .updateEnds).map s.setThread

def system (ι : Type) [DecidableEq ι] : System (AuthServer ι) (Event ι) := ⟨new, step⟩

def Event.of (i : ι) : Event ι → Option AuthSession.Event
  | .callback j e => if j = i then some e else none
  | .updateSocket j net => if j = i then some (.update net) else none
  | _ => none

/-! ## What a step does to a client -/

variable {s t : AuthServer ι} {i j : ι} {e : Event ι}

theorem session_setSession (s : AuthServer ι) (i : ι) (a : AuthSession) :
    (s.setSession i a).session = Function.update s.session i a := by
  funext j
  by_cases hj : j = i
  · subst hj
    simp only [session, setSession, NetworkThread.setSocket, Function.update_self]
  · simp only [session, setSession, NetworkThread.setSocket, Function.update_of_ne hj]

theorem fault_of_failure (h : s.failure = none) (i : ι) : s.fault i = none := by
  rw [fault, h]
  rfl

theorem client_setClient (s : AuthServer ι) (i : ι) (p : AuthSession.Process) :
    (s.setClient i p).client i = p := by
  have hsession : (s.setClient i p).session i = p.session :=
    (congrFun (session_setSession s i p.session) i).trans (Function.update_self ..)
  have hfault : (s.setClient i p).fault i = p.failure := by
    unfold fault setClient
    cases p.failure with
    | none => rfl
    | some f => exact if_pos rfl
  rw [client, hsession, hfault]

theorem client_setClient_of_ne (h : s.failure = none) (p : AuthSession.Process) (hj : j ≠ i) :
    (s.setClient i p).client j = s.client j := by
  have hsession : (s.setClient i p).session j = s.session j :=
    (congrFun (session_setSession s i p.session) j).trans (Function.update_of_ne hj ..)
  have hfault : (s.setClient i p).fault j = none := by
    unfold fault setClient
    cases p.failure with
    | none => rfl
    | some f => exact if_neg hj.symm
  rw [client, client, hsession, hfault, fault_of_failure h]

inductive Steps (s : AuthServer ι) : Event ι → AuthServer ι → Prop where
  | socketOpen {i : ι} (hnone : s.opening = none) (hi : i ∉ s.added) :
      Steps s (.socketOpen i) { s.setSession i AuthSession.new.start with opening := some i }
  | addSocket {i : ι} (hi : s.opening = some i) (hnew : i ∉ s.added) :
      Steps s .addSocket { s.setThread (s.toNetworkThread.addSocket i) with opening := none }
  | callback {i : ι} {e : AuthSession.Event} {p : AuthSession.Process} (hsweep : s.sweep = none)
      (he : ∀ net, e ≠ .update net)
      (hp : AuthSession.step (s.client i) e = some p) : Steps s (.callback i e) (s.setClient i p)
  | updateBegins (hsweep : s.sweep = none) :
      Steps s .updateBegins (s.setThread { s.addNewSockets with sweep := some 0 })
  | updateSocket {i : ι} {net : Net} {cursor : Nat} {u : NetworkThread ι}
      (hsweep : s.sweep = some cursor) (hi : s.sockets[cursor]? = some i)
      (hu : s.toNetworkThread.updateSocket net cursor i = some u) :
      Steps s (.updateSocket i net) (s.setThread u)
  | updateEnds (hsweep : s.sweep = some s.sockets.length) :
      Steps s .updateEnds (s.setThread { s.toNetworkThread with sweep := none })

theorem steps_of_step (h : s.step e = some t) : s.failure = none ∧ Steps s e t := by
  unfold step at h
  rw [Option.ite_none_left_eq_some] at h
  obtain ⟨hfailure, h⟩ := h
  refine ⟨by simpa using hfailure, ?_⟩
  cases e with
  | socketOpen i =>
    dsimp only at h
    rw [Option.ite_none_left_eq_some, not_or, Option.some.injEq] at h
    obtain ⟨⟨hnone, hi⟩, rfl⟩ := h
    exact .socketOpen (by simpa using hnone) hi
  | addSocket =>
    obtain ⟨i, hi, h⟩ := Option.bind_eq_some_iff.mp h
    obtain ⟨u, hu, rfl⟩ := Option.map_eq_some_iff.mp h
    rw [NetworkThread.step, Option.ite_none_left_eq_some, Option.some.injEq] at hu
    obtain ⟨hnew, rfl⟩ := hu
    exact .addSocket hi hnew
  | callback i e =>
    have hcallback : (∀ net, e ≠ .update net) ∧ s.sweep.isSome ≠ true ∧
        (AuthSession.step (s.client i) e).map (s.setClient i) = some t := by
      cases e with
      | update net => cases h
      | _ => exact ⟨by simp, Option.ite_none_left_eq_some.mp h⟩
    obtain ⟨he, hsweep, hmap⟩ := hcallback
    obtain ⟨p, hp, rfl⟩ := Option.map_eq_some_iff.mp hmap
    exact .callback (by simpa using hsweep) he hp
  | updateBegins =>
    obtain ⟨u, hu, rfl⟩ := Option.map_eq_some_iff.mp h
    rw [NetworkThread.step, Option.ite_none_left_eq_some, Option.some.injEq] at hu
    obtain ⟨hsweep, rfl⟩ := hu
    exact .updateBegins (by simpa using hsweep)
  | updateSocket i net =>
    obtain ⟨cursor, hcursor, h⟩ := Option.bind_eq_some_iff.mp h
    rw [Option.ite_none_right_eq_some] at h
    obtain ⟨hi, h⟩ := h
    obtain ⟨u, hu, rfl⟩ := Option.map_eq_some_iff.mp h
    exact .updateSocket hcursor hi hu
  | updateEnds =>
    obtain ⟨u, hu, rfl⟩ := Option.map_eq_some_iff.mp h
    cases hsweep : s.sweep with
    | none =>
      simp only [NetworkThread.step, hsweep] at hu
      cases hu
    | some cursor =>
      simp only [NetworkThread.step, hsweep, Option.ite_none_right_eq_some,
        Option.some.injEq] at hu
      obtain ⟨rfl, rfl⟩ := hu
      exact .updateEnds hsweep

theorem updateSocket_eq {t u : NetworkThread ι} {net : Net} {cursor : Nat}
    (h : t.updateSocket net cursor i = some u) : ∃ sock more,
      (t.socket i).update net ((t.socket i).writeQueue.length + 1) = some (sock, more) ∧
      u = if more then { t.setSocket i sock with sweep := some (cursor + 1) }
        else { t.setSocket i sock with
          removed := t.removed ++ [i]
          connections := addInt32 t.connections (-1)
          sockets := t.sockets.eraseIdx cursor } := by
  obtain ⟨⟨sock, more⟩, hsock, hu⟩ := Option.map_eq_some_iff.mp h
  refine ⟨sock, more, hsock, ?_⟩
  subst hu
  cases more with
  | true => rfl
  | false =>
    have hclosed : sock.closed = true := (Socket.update_writes hsock).2 rfl
    simp only [Socket.isOpen_of_closed hclosed, Bool.false_eq_true, if_false]

theorem session_updateSocket {u : NetworkThread ι} {net : Net} {cursor : Nat}
    (h : s.toNetworkThread.updateSocket net cursor i = some u) : ∃ sock more,
      (s.socket i).update net ((s.socket i).writeQueue.length + 1) = some (sock, more) ∧
      (s.setThread u).session =
        Function.update s.session i { s.session i with toSocket := sock } := by
  obtain ⟨sock, more, hsock, hu⟩ := updateSocket_eq h
  refine ⟨sock, more, hsock, ?_⟩
  have hsocket : u.socket = Function.update s.socket i sock := by
    rw [hu]
    split_ifs <;> rfl
  funext j
  by_cases hj : j = i
  · subst hj
    simp only [session, setThread, hsocket, Function.update_self]
  · simp only [session, setThread, hsocket, Function.update_of_ne hj]

theorem Steps.own {d : AuthSession.Event} (h : Steps s e t) (hf : s.failure = none)
    (hd : e.of i = some d) : AuthSession.step (s.client i) d = some (t.client i) := by
  cases h with
  | socketOpen | addSocket | updateBegins | updateEnds => cases hd
  | @callback j e p hsweep he hp =>
    rw [Event.of, Option.ite_none_right_eq_some] at hd
    obtain ⟨rfl, hd⟩ := hd
    rw [← Option.some.inj hd, client_setClient]
    exact hp
  | @updateSocket j net cursor u hsweep hj hu =>
    rw [Event.of, Option.ite_none_right_eq_some] at hd
    obtain ⟨rfl, hd⟩ := hd
    obtain ⟨sock, more, hsock, hsession⟩ := session_updateSocket hu
    have hfault : (s.client j).failure = none := fault_of_failure hf j
    rw [← Option.some.inj hd, AuthSession.step, hfault]
    simp only [client, hsession, Function.update_self]
    change Option.map _ ((s.socket j).update net ((s.socket j).writeQueue.length + 1)) = _
    rw [hsock, show (s.setThread u).fault j = none from hfault]
    rfl

theorem Steps.others (h : Steps s e t) (hf : s.failure = none) (hd : e.of i = none)
    (he : e ≠ .socketOpen i) : t.client i = s.client i := by
  cases h with
  | @socketOpen j hnone hj =>
    have hne : i ≠ j := fun hij => he (hij ▸ rfl)
    have hsession := congrFun (session_setSession s j AuthSession.new.start) i
    rw [Function.update_of_ne hne] at hsession
    exact congrArg (AuthSession.Process.mk · (s.fault i)) hsession
  | addSocket | updateEnds => rfl
  | @callback j e p hsweep he' hp =>
    rw [Event.of, ite_eq_right_iff] at hd
    exact client_setClient_of_ne hf p fun hij => absurd (hd hij.symm) nofun
  | updateBegins =>
    have hsocket := NetworkThread.socket_foldl_addNewSocket s.newSockets s.toNetworkThread
    unfold client session setThread NetworkThread.addNewSockets
    dsimp only
    rw [hsocket]
    rfl
  | @updateSocket j net cursor u hsweep hj hu =>
    rw [Event.of, ite_eq_right_iff] at hd
    obtain ⟨sock, more, -, hsession⟩ := session_updateSocket hu
    have hne : i ≠ j := fun hij => absurd (hd hij.symm) nofun
    have hi := congrFun hsession i
    rw [Function.update_of_ne hne] at hi
    exact congrArg (AuthSession.Process.mk · (s.fault i)) hi

theorem client_socketOpen (h : Steps s (.socketOpen i) t) (hf : s.failure = none) :
    t.client i = AuthSession.system.start := by
  cases h with
  | socketOpen hnone hi =>
    have hsession := congrFun (session_setSession s i AuthSession.new.start) i
    rw [Function.update_self] at hsession
    have hfault := fault_of_failure hf i
    change AuthSession.Process.mk ((s.setSession i AuthSession.new.start).session i) (s.fault i) = _
    rw [hsession, hfault]
    rfl

/-! ## The invariant -/

/-- The sockets are accounted for by the network thread, every session is as it is alone, and
nothing has happened for a client that has none yet. -/
structure Inv (s : AuthServer ι) : Prop where
  thread : s.toNetworkThread.Inv
  sessions : ∀ i, AuthSession.Inv (s.client i)
  unopened : ∀ i, ¬s.Opened i → s.session i = AuthSession.new
  opening : ∀ i, s.opening = some i → i ∉ s.added

theorem inv_new : (new : AuthServer ι).Inv where
  thread := NetworkThread.inv_of_reachable (System.reachable_start _)
  sessions _ := AuthSession.inv_new
  unopened _ _ := rfl
  opening _ h := nomatch h

theorem Steps.opened_iff (h : Steps s e t) :
    t.Opened i ↔ s.Opened i ∨ e = .socketOpen i := by
  have same {u : AuthServer ι} (ha : u.added = s.added) (ho : u.opening = s.opening)
      (he : e ≠ .socketOpen i) : u.Opened i ↔ s.Opened i ∨ e = .socketOpen i := by
    unfold Opened
    rw [ha, ho]
    exact (or_iff_left he).symm
  cases h with
  | @socketOpen j hnone hj =>
    unfold Opened
    rw [hnone]
    simp [setSession, NetworkThread.setSocket, eq_comm]
  | @addSocket j hj hnew =>
    unfold Opened
    rw [hj]
    simp [setThread, NetworkThread.addSocket, eq_comm]
  | callback => exact same rfl rfl (by simp)
  | updateBegins => exact same (NetworkThread.keeps_foldl_addNewSocket _ _).1 rfl (by simp)
  | updateSocket _ _ hu => exact same (NetworkThread.keeps_updateSocket hu).1 rfl (by simp)
  | updateEnds => exact same rfl rfl (by simp)

theorem Inv.opened_of_mem (h : s.Inv) (hi : i ∈ s.sockets) : s.Opened i :=
  .inl (h.thread.places.subset (List.mem_append_left _ (List.mem_append_right _ hi)))

theorem Steps.of_eq_none (h : Steps s e t) (hi : s.Inv) (ho : ¬s.Opened i) : e.of i = none := by
  cases h with
  | socketOpen | addSocket | updateBegins | updateEnds => rfl
  | @callback j e p hsweep he hp =>
    refine if_neg ?_
    rintro rfl
    have hnew : (s.client j).session = AuthSession.new := hi.unopened j ho
    unfold AuthSession.step at hp
    rw [hnew, Option.ite_none_left_eq_some] at hp
    cases e with
    | update net => exact he net rfl
    | _ => exact absurd hp.2 nofun
  | updateSocket hsweep hj hu =>
    refine if_neg ?_
    rintro rfl
    exact ho (hi.opened_of_mem (List.mem_of_getElem? hj))

theorem Inv.step (hi : s.Inv) (h : s.step e = some t) : t.Inv := by
  obtain ⟨hf, hsteps⟩ := steps_of_step h
  refine ⟨?_, fun i => ?_, fun i ho => ?_, ?_⟩
  · cases hsteps with
    | @socketOpen i hnone hnew =>
      have hsocket : s.socket i = .new :=
        congrArg AuthSession.toSocket (hi.unopened i (by simp [Opened, hnone, hnew]))
      exact NetworkThread.Accounted.setSocket hi.thread (hsocket ▸ AuthSession.ages_start)
    | addSocket _ hnew => exact hi.thread.addSocket hnew
    | @callback i _ _ _ _ hp =>
      exact NetworkThread.Accounted.setSocket hi.thread (AuthSession.ages_step (hi.sessions i) hp)
    | updateBegins =>
      have hall := hi.thread.addNewSockets
      exact ⟨hall.places, hall.nodup, hall.connections, hall.removed, hall.closing, hall.closesOnce⟩
    | updateSocket _ hj hu => exact hi.thread.updateSocket hj hu
    | updateEnds =>
      have hall := hi.thread
      exact ⟨hall.places, hall.nodup, hall.connections, hall.removed, hall.closing, hall.closesOnce⟩
  · cases hd : e.of i with
    | some d => exact (hi.sessions i).step (hsteps.own hf hd)
    | none =>
      by_cases he : e = .socketOpen i
      · rw [client_socketOpen (he ▸ hsteps) hf]
        exact AuthSession.armed_start.inv
      · rw [hsteps.others hf hd he]
        exact hi.sessions i
  · rw [hsteps.opened_iff, not_or] at ho
    have hsame := hsteps.others hf (hsteps.of_eq_none hi ho.1) ho.2
    exact (congrArg AuthSession.Process.session hsame).trans (hi.unopened i ho.1)
  · cases hsteps with
    | socketOpen hnone hnew => exact fun j hj => Option.some.inj hj ▸ hnew
    | addSocket => exact nofun
    | callback => exact hi.opening
    | updateBegins =>
      exact (NetworkThread.keeps_foldl_addNewSocket s.newSockets s.toNetworkThread).1 ▸ hi.opening
    | updateSocket _ _ hu => exact (NetworkThread.keeps_updateSocket hu).1 ▸ hi.opening
    | updateEnds => exact hi.opening

/-! ## The clients apart -/

instance (s : AuthServer ι) (i : ι) : Decidable (s.Opened i) :=
  inferInstanceAs (Decidable (i ∈ s.added ∨ s.opening = some i))

theorem Steps.own_of_opened {d : AuthSession.Event} (h : Steps s e t) (hi : s.Inv)
    (hd : e.of i = some d) : s.Opened i ∧ t.Opened i := by
  have ho : s.Opened i := by
    by_contra ho
    exact absurd ((h.of_eq_none hi ho).symm.trans hd) nofun
  exact ⟨ho, h.opened_iff.mpr (.inl ho)⟩

/-- Every client by itself, from the moment it has a session. -/
def clients (ι : Type) [DecidableEq ι] : Parties (system ι) AuthSession.system ι where
  party s i := if s.Opened i then s.client i else AuthSession.system.start
  event := Event.of
  inv := Inv
  inv_start := inv_new
  inv_step _ _ _ := Inv.step
  start i := if_neg fun h => h.elim List.not_mem_nil nofun
  own s e t i d hi h hd := by
    obtain ⟨hf, hsteps⟩ := steps_of_step h
    obtain ⟨hs, ht⟩ := hsteps.own_of_opened hi hd
    rw [if_pos hs, if_pos ht]
    exact hsteps.own hf hd
  others s e t i hi h hd := by
    obtain ⟨hf, hsteps⟩ := steps_of_step h
    have hiff := hsteps.opened_iff (i := i)
    by_cases he : e = .socketOpen i
    · subst he
      rw [if_pos (hiff.mpr (.inr rfl)), client_socketOpen hsteps hf]
      cases hsteps with
      | socketOpen hnone hnew => exact (if_neg (by simp [Opened, hnone, hnew])).symm
    · rw [or_iff_left he] at hiff
      by_cases hs : s.Opened i
      · rw [if_pos hs, if_pos (hiff.mpr hs)]
        exact hsteps.others hf hd he
      · rw [if_neg hs, if_neg (mt hiff.mp hs)]

variable {es : List (Event ι)}

theorem inv_run (h : (system ι).runFrom new es = some t) : t.Inv :=
  (clients ι).inv_run inv_new h

theorem client_run (h : (system ι).runFrom new es = some t) (ho : t.Opened i) :
    AuthSession.system.runFrom AuthSession.system.start (es.filterMap (Event.of i)) =
      some (t.client i) := by
  have hrun := (clients ι).run h i
  rwa [show (clients ι).party t i = t.client i from if_pos ho] at hrun

/-- However many clients there are, each is where the events that were for it lead a session
that is alone; a fault of one of them, and nothing else, has ended the server; and what the
others do makes no difference to it. -/
theorem clients_isolated (hrun : (system ι).runFrom new es = some t) :
    (∀ i, t.Opened i → AuthSession.system.runFrom AuthSession.system.start
      (es.filterMap (Event.of i)) = some (t.client i)) ∧
    (∀ i f, t.failure = some (i, f) ↔ (t.client i).failure = some f) ∧
    ∀ fs u i, (system ι).runFrom new fs = some u → t.Opened i → u.Opened i →
      fs.filterMap (Event.of i) = es.filterMap (Event.of i) → u.client i = t.client i := by
  refine ⟨fun i => client_run hrun, fun i f => ?_, fun fs u i hu ht hopened hfs => ?_⟩
  · change _ ↔ (t.failure.bind fun g => if g.1 = i then some g.2 else none) = some f
    rw [Option.bind_eq_some_iff]
    constructor
    · exact fun h => ⟨(i, f), h, if_pos rfl⟩
    · rintro ⟨⟨j, g⟩, hg, h⟩
      obtain ⟨rfl, hgf⟩ := Option.ite_none_right_eq_some.mp h
      obtain rfl : g = f := Option.some.inj hgf
      exact hg
  · have hparty : (clients ι).party u i = (clients ι).party t i := (clients ι).isolated hu hrun hfs
    rwa [show (clients ι).party u i = u.client i from if_pos hopened,
      show (clients ι).party t i = t.client i from if_pos ht] at hparty

def threeClients : List (Event Nat) :=
  [.socketOpen 0, .addSocket, .socketOpen 1, .updateBegins, .updateSocket 0 fun _ _ => .wouldBlock,
    .updateEnds, .callback 1 (.readCompletion AuthSession.sampleEnv AuthSession.fragment),
    .callback 0 .readError, .addSocket, .updateBegins, .updateSocket 0 fun _ _ => .wouldBlock,
    .socketOpen 2, .updateSocket 1 fun _ _ => .wouldBlock, .updateEnds,
    .callback 2 (.readCompletion AuthSession.sampleEnv AuthSession.fragment)]

def oneClient : List (Event Nat) :=
  [.socketOpen 1, .callback 1 (.readCompletion AuthSession.sampleEnv AuthSession.fragment),
    .addSocket, .updateBegins, .updateSocket 1 fun _ _ => .wouldBlock]

theorem clients_isolated_three : ∃ t u,
    (system Nat).runFrom new threeClients = some t ∧ (system Nat).runFrom new oneClient = some u ∧
    u.client 1 = t.client 1 := by
  have opens (es : List (Event Nat))
      (h : ((system Nat).runFrom new es).any (fun t => decide (t.Opened 1)) = true) :
      ∃ t, (system Nat).runFrom new es = some t ∧ t.Opened 1 := by
    obtain ⟨t, ht, ho⟩ := (Option.any_eq_true _ _).mp h
    exact ⟨t, ht, of_decide_eq_true ho⟩
  obtain ⟨t, ht, hopened⟩ := opens threeClients (by decide +kernel)
  obtain ⟨u, hu, hopened'⟩ := opens oneClient (by decide +kernel)
  exact ⟨t, u, ht, hu, (clients_isolated ht).2.2 oneClient u 1 hu hopened hopened' rfl⟩

end Steps
end AuthServer
end Warhead
