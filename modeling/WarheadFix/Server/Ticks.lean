import WarheadFix.Server.AuthServer

/-! Ticks of the server. A tick takes the new sessions in and updates every live one, in order
and once; the sessions that were closed when it began are gone when it ends, and no other. So a
session gives its connection back only when it closes, and one to which nobody listens and
which nobody closes keeps it. -/

namespace Warhead
open Lib

namespace Socket
variable {s t : Socket} {net : Net}

theorem update_more {fuel : Nat} {more : Bool} (h : s.update net fuel = some (t, more)) :
    more = !s.closed := by
  unfold update at h
  split_ifs at h with hc
  · rw [← (Prod.mk.inj (Option.some.inj h)).2, hc]
    rfl
  · rw [← (Prod.mk.inj (Option.some.inj h)).2, Bool.eq_false_of_not_eq_true hc]
    rfl
  · obtain ⟨u, -, hut⟩ := Option.map_eq_some_iff.mp h
    rw [← (Prod.mk.inj hut).2, Bool.eq_false_of_not_eq_true hc]
    rfl

end Socket

namespace NetworkThread
variable {ι : Type}

theorem foldl_addNewSocket_eq (is : List ι) (u : NetworkThread ι) :
    (is.foldl addNewSocket u).sockets = u.sockets ++ is.filter (fun i => (u.socket i).isOpen) ∧
    (is.foldl addNewSocket u).removed =
      u.removed ++ is.filter fun i => !(u.socket i).isOpen := by
  induction is generalizing u with
  | nil => simp
  | cons i is ih =>
    obtain ⟨hsockets, hremoved⟩ := ih (u.addNewSocket i)
    rw [List.foldl_cons, hsockets, hremoved, List.filter_cons, List.filter_cons]
    unfold addNewSocket
    cases (u.socket i).isOpen <;> simp

end NetworkThread

namespace AuthSession
variable {p q : Process} {es : List Event}

theorem stranded_iff (hi : Inv p) : Stranded p ↔ ¬Listening p := by
  constructor
  · rintro ⟨hf, ho, hr⟩ hl
    have hone := hl hf ho
    rw [hr] at hone
    exact absurd hone nofun
  · intro hl
    rw [Listening, Classical.not_imp, Classical.not_imp] at hl
    obtain ⟨hf, ho, hr⟩ := hl
    rcases hi.reads with hnil | ha
    · exact ⟨hf, ho, hnil⟩
    · exact absurd (by rw [ha.reads]; rfl) hr

theorem throughout_of_listening (hi : Inv p) (hrun : system.runFrom p es = some q)
    (hl : Listening q) : system.Throughout Listening p es := by
  induction es generalizing p with
  | nil => exact Option.some.inj hrun ▸ hl
  | cons e es ih =>
    obtain ⟨m, hm, hrest⟩ := System.runFrom_cons.mp hrun
    constructor
    · by_contra hp
      have hq : Stranded q := stranded_forever hi ((stranded_iff hi).mpr hp) hrun
      exact (stranded_iff (System.runFrom_invariant (fun _ _ _ => Inv.step) hi hrun)).mp hq hl
    · intro t ht
      obtain rfl := Option.some.inj (hm.symm.trans ht)
      exact ih (hi.step hm) hrest

theorem listening_of_throughout (hrun : system.runFrom p es = some q)
    (h : system.Throughout Listening p es) : Listening q := by
  induction es generalizing p with
  | nil => exact Option.some.inj hrun ▸ h
  | cons e es ih =>
    obtain ⟨m, hm, hrest⟩ := System.runFrom_cons.mp hrun
    exact ih hrest (h.2 m hm)

theorem stranded_run_iff (hrun : system.runFrom system.start es = some q) :
    Stranded q ↔ ¬system.Along KnownCommand system.start es := by
  have hstart : Inv system.start := armed_start.inv
  have hq : Inv q := System.runFrom_invariant (fun _ _ _ => Inv.step) hstart hrun
  have halong : system.Throughout Listening system.start es ↔
      system.Along KnownCommand system.start es :=
    System.throughout_iff_along (fun _ _ _ => Inv.step) (fun _ _ _ => listening_step) hstart
      (listening_of_armed armed_start)
  rw [stranded_iff hq, ← halong, not_iff_not]
  exact ⟨throughout_of_listening hstart hrun, listening_of_throughout hrun⟩

end AuthSession

namespace AuthServer
variable {ι : Type} {s₀ s t : AuthServer ι} {done rest : List ι}

def Event.updated : Event ι → Option ι
  | .updateSocket i _ => some i
  | _ => none

def isOpen (s : AuthServer ι) (i : ι) : Bool := (s.session i).isOpen

def live (s : AuthServer ι) : List ι := s.sockets ++ s.newSockets.filter s.isOpen

/-! ## A sweep -/

/-- In the middle of the sweep of a tick that began in the first of the states. -/
structure Sweeping (s₀ : AuthServer ι) (done rest : List ι) (s : AuthServer ι) : Prop where
  sweep : s.sweep = some (done.filter s₀.isOpen).length
  sockets : s.sockets = done.filter s₀.isOpen ++ rest
  removed : s.removed = s₀.removed ++ s₀.newSockets.filter (fun i => !s₀.isOpen i) ++
    done.filter fun i => !s₀.isOpen i
  flags : ∀ i ∈ done ++ rest, s.isOpen i = s₀.isOpen i
  added : ∀ i ∈ done ++ rest, i ∈ s.added
  waiting : s.added = s₀.added ++ s.newSockets

theorem Sweeping.of_eq (h : Sweeping s₀ done rest s) (hsweep : t.sweep = s.sweep)
    (hsockets : t.sockets = s.sockets) (hremoved : t.removed = s.removed)
    (hopen : ∀ i ∈ s.added, t.isOpen i = s.isOpen i) {new : List ι}
    (hadded : t.added = s.added ++ new) (hnew : t.newSockets = s.newSockets ++ new) :
    Sweeping s₀ done rest t where
  sweep := hsweep.trans h.sweep
  sockets := hsockets.trans h.sockets
  removed := hremoved.trans h.removed
  flags i hi := (hopen i (h.added i hi)).trans (h.flags i hi)
  added i hi := hadded ▸ List.mem_append_left _ (h.added i hi)
  waiting := by rw [hadded, hnew, h.waiting, List.append_assoc]

theorem Sweeping.getElem?_sockets {cursor : Nat} (h : Sweeping s₀ done rest s)
    (hc : s.sweep = some cursor) : s.sockets[cursor]? = rest.head? := by
  obtain rfl : cursor = _ := Option.some.inj (hc.symm.trans h.sweep)
  rw [h.sockets, List.getElem?_append_right le_rfl, Nat.sub_self, List.head?_eq_getElem?]

variable [DecidableEq ι] {i : ι} {e : Event ι} {es : List (Event ι)}

theorem isOpen_of_client (h : t.client i = s.client i) : t.isOpen i = s.isOpen i :=
  congrArg (fun p => p.session.isOpen) h

theorem Inv.isOpen_eq (h : s.Inv) (i : ι) : s.isOpen i = !(s.socket i).closed := by
  have hclosing : (s.session i).closing = false := (h.sessions i).closing
  change (!(s.socket i).closed && !(s.socket i).closing) = _
  rw [show (s.socket i).closing = false from hclosing]
  exact Bool.and_true _

theorem Sweeping.updateSocket {u : NetworkThread ι} {net : Net} {cursor : Nat}
    (h : Sweeping s₀ done rest s) (hi : s.Inv) (hc : s.sweep = some cursor)
    (hget : s.sockets[cursor]? = some i)
    (hu : s.toNetworkThread.updateSocket net cursor i = some u) :
    ∃ after, rest = i :: after ∧ Sweeping s₀ (done ++ [i]) after (s.setThread u) := by
  obtain ⟨after, rfl⟩ : ∃ after, rest = i :: after :=
    List.head?_eq_some_iff.mp ((h.getElem?_sockets hc).symm.trans hget)
  refine ⟨after, rfl, ?_⟩
  obtain ⟨sock, more, hsock, rfl⟩ := updateSocket_eq hu
  obtain ⟨hwrites, -⟩ := Socket.update_writes hsock
  have hclosing : (s.socket i).closing = false := (hi.sessions i).closing
  have hmore : more = s₀.isOpen i := by
    rw [← h.flags i (by simp), hi.isOpen_eq]
    exact Socket.update_more hsock
  have hopen : sock.isOpen = s.isOpen i := by
    rw [hi.isOpen_eq, Socket.isOpen, hwrites.closing, hclosing, hwrites.stays hclosing]
    exact Bool.and_true _
  obtain rfl : cursor = _ := Option.some.inj (hc.symm.trans h.sweep)
  have hall : done ++ i :: after = done ++ [i] ++ after := by simp
  have hflags : ∀ j ∈ done ++ [i] ++ after,
      (Function.update s.socket i sock j).isOpen = s₀.isOpen j := by
    intro j hj
    rw [← hall] at hj
    by_cases hij : j = i
    · subst hij
      rw [Function.update_self, hopen, h.flags j hj]
    · rw [Function.update_of_ne hij]
      exact h.flags j hj
  have hadded : ∀ j ∈ done ++ [i] ++ after, j ∈ s.added := fun j hj => h.added j (hall ▸ hj)
  cases more with
  | true =>
    refine ⟨?_, ?_, ?_, hflags, hadded, h.waiting⟩
    · simp [setThread, ← hmore]
    · simp [setThread, NetworkThread.setSocket, ← hmore, h.sockets]
    · simp [setThread, NetworkThread.setSocket, ← hmore, h.removed]
  | false =>
    refine ⟨?_, ?_, ?_, hflags, hadded, h.waiting⟩
    · simp [setThread, NetworkThread.setSocket, ← hmore, h.sweep]
    · simp [setThread, ← hmore, h.sockets, List.eraseIdx_append_of_length_le]
    · simp [setThread, ← hmore, h.removed]

theorem Sweeping.step (h : Sweeping s₀ done rest s) (hi : s.Inv) (he : s.step e = some t)
    (hne : e ≠ .updateEnds) : ∃ after, rest = e.updated.toList ++ after ∧
      Sweeping s₀ (done ++ e.updated.toList) after t := by
  obtain ⟨hf, hsteps⟩ := steps_of_step he
  have stays (hnone : e.updated = none) (ht : Sweeping s₀ done rest t) :
      ∃ after, rest = e.updated.toList ++ after ∧
        Sweeping s₀ (done ++ e.updated.toList) after t := by
    rw [hnone]
    exact ⟨rest, rfl, (List.append_nil done).symm ▸ ht⟩
  cases hsteps with
  | @socketOpen j hnone hj =>
    refine stays rfl (h.of_eq rfl rfl rfl (fun i hadded => ?_) (List.append_nil _).symm
      (List.append_nil _).symm)
    have hij : Event.socketOpen j ≠ Event.socketOpen i := by
      rintro ⟨⟩
      exact hj hadded
    exact isOpen_of_client (Steps.others (.socketOpen hnone hj) hf rfl hij)
  | @addSocket j hj hnew => exact stays rfl (h.of_eq rfl rfl rfl (fun _ _ => rfl) rfl rfl)
  | callback hsweep => exact absurd (hsweep.symm.trans h.sweep) nofun
  | updateBegins hsweep => exact absurd (hsweep.symm.trans h.sweep) nofun
  | updateSocket hsweep hget hu => exact h.updateSocket hi hsweep hget hu
  | updateEnds => exact absurd rfl hne

theorem Sweeping.run (h : Sweeping s₀ done rest s) (hi : s.Inv)
    (hrun : (system ι).runFrom s es = some t) (hes : .updateEnds ∉ es) :
    ∃ after, rest = es.filterMap Event.updated ++ after ∧
      Sweeping s₀ (done ++ es.filterMap Event.updated) after t := by
  induction es generalizing s done rest with
  | nil =>
    rw [← Option.some.inj hrun]
    exact ⟨rest, rfl, (List.append_nil done).symm ▸ h⟩
  | cons e es ih =>
    obtain ⟨u, hu, hrest⟩ := System.runFrom_cons.mp hrun
    obtain ⟨hne, hes⟩ := not_or.mp (List.mem_cons.not.mp hes)
    obtain ⟨after, rfl, hnext⟩ := h.step hi hu (Ne.symm hne)
    obtain ⟨last, rfl, hlast⟩ := ih hnext (hi.step hu) hrest hes
    have hall : (e :: es).filterMap Event.updated =
        e.updated.toList ++ es.filterMap Event.updated := by
      cases hupdated : e.updated with
      | none => exact List.filterMap_cons_none hupdated
      | some i => exact List.filterMap_cons_some hupdated
    rw [hall, ← List.append_assoc done]
    exact ⟨last, (List.append_assoc ..).symm, hlast⟩

theorem sweeping_of_updateBegins (hi : s.Inv) (h : s.step .updateBegins = some t) :
    Sweeping s [] s.live t := by
  obtain ⟨hf, hsteps⟩ := steps_of_step h
  have hclients : ∀ i, t.isOpen i = s.isOpen i := fun i =>
    isOpen_of_client (hsteps.others hf rfl nofun)
  cases hsteps with
  | updateBegins =>
    obtain ⟨hsockets, hremoved⟩ :=
      NetworkThread.foldl_addNewSocket_eq s.newSockets s.toNetworkThread
    have hadded := (NetworkThread.keeps_foldl_addNewSocket s.newSockets s.toNetworkThread).1
    have hopen : (fun i => (s.socket i).isOpen) = s.isOpen := rfl
    refine ⟨rfl, hsockets, ?_, fun i _ => hclients i, fun i hlive => ?_, ?_⟩
    · exact hremoved.trans (List.append_nil _).symm
    · refine hadded.symm ▸ hi.thread.places.subset (List.mem_append_left _ ?_)
      rcases List.mem_append.mp (show i ∈ s.live from hlive) with hsocket | hnew
      · exact List.mem_append_right _ hsocket
      · exact List.mem_append_left _ (List.mem_filter.mp hnew).1
    · exact hadded.trans (List.append_nil _).symm

theorem Sweeping.updateEnds (h : Sweeping s₀ done rest s) (he : s.step .updateEnds = some t) :
    rest = [] ∧ t.sockets = s.sockets ∧ t.removed = s.removed ∧ t.added = s.added ∧
      t.newSockets = s.newSockets := by
  obtain ⟨-, hsteps⟩ := steps_of_step he
  cases hsteps with
  | updateEnds hsweep =>
    have hlength := Option.some.inj (hsweep.symm.trans h.sweep)
    rw [h.sockets, List.length_append] at hlength
    exact ⟨List.length_eq_zero_iff.mp (by omega), rfl, rfl, rfl, rfl⟩

def tick (s : AuthServer ι) (net : ι → Net) : List (Event ι) :=
  .updateBegins :: s.live.map (fun i => .updateSocket i (net i)) ++ [.updateEnds]

theorem Sweeping.completes (h : Sweeping s₀ done rest s) (hi : s.Inv) (hf : s.failure = none)
    (net : ι → Net) : ∃ t, (system ι).runFrom s
      (rest.map (fun i => .updateSocket i (net i)) ++ [.updateEnds]) = some t := by
  induction rest generalizing s done with
  | nil =>
    have hlength : s.sweep = some s.sockets.length := by
      rw [h.sweep, h.sockets, List.append_nil]
    refine ⟨s.setThread { s.toNetworkThread with sweep := none }, System.runFrom_cons.mpr
      ⟨_, ?_, rfl⟩⟩
    change s.step .updateEnds = _
    simp only [AuthServer.step, hf, NetworkThread.step, hlength, Option.isSome_none,
      Bool.false_eq_true, if_false, if_true, Option.map_some]
  | cons i rest ih =>
    have hget := h.getElem?_sockets h.sweep
    obtain ⟨⟨sock, more⟩, hsock⟩ := Socket.update_terminates (net i) (s.socket i)
    obtain ⟨u, hu⟩ : ∃ u, s.toNetworkThread.updateSocket (net i)
        (done.filter s₀.isOpen).length i = some u := by
      unfold NetworkThread.updateSocket
      rw [hsock _ (Nat.lt_succ_self _)]
      exact ⟨_, rfl⟩
    have hstep : s.step (.updateSocket i (net i)) = some (s.setThread u) := by
      simp only [AuthServer.step, hf, h.sweep, hget, hu, Option.isSome_none, Bool.false_eq_true,
        if_false, Option.bind_some, List.head?_cons, if_true, Option.map_some]
    obtain ⟨after, hafter, hnext⟩ := h.updateSocket hi h.sweep hget hu
    obtain rfl : rest = after := (List.cons.inj hafter).2
    obtain ⟨t, ht⟩ := ih hnext (hi.step hstep) hf
    exact ⟨t, System.runFrom_cons.mpr ⟨_, hstep, ht⟩⟩

/-- A tick can always run to its end, and whatever happens besides, it has then updated the open
sockets once and in order, the live ones before the new ones; it has removed the sockets
that were closed when it began, and no other; and those added meanwhile wait for the next. -/
theorem tick_sweeps (hs : (system ι).Reachable s) (hf : s.failure = none)
    (hidle : s.sweep = none) :
    (∀ net, ∃ t, (system ι).runFrom s (s.tick net) = some t) ∧
    ∀ es t, .updateEnds ∉ es →
      (system ι).runFrom s (.updateBegins :: es ++ [.updateEnds]) = some t →
      es.filterMap Event.updated = s.live ∧
      t.sockets = (s.sockets ++ s.newSockets).filter s.isOpen ∧
      t.removed = s.removed ++ (s.newSockets ++ s.sockets).filter (fun i => !s.isOpen i) ∧
      t.added = s.added ++ t.newSockets := by
  obtain ⟨es₀, hes₀⟩ := hs
  have hi : s.Inv := inv_run hes₀
  refine ⟨fun net => ?_, fun es t hes hrun => ?_⟩
  · have hbegin : s.step .updateBegins =
        some (s.setThread { s.addNewSockets with sweep := some 0 }) := by
      simp only [AuthServer.step, hf, NetworkThread.step, hidle, Option.isSome_none,
        Bool.false_eq_true, if_false, Option.map_some]
    obtain ⟨t, ht⟩ := (sweeping_of_updateBegins hi hbegin).completes (hi.step hbegin) hf net
    exact ⟨t, System.runFrom_cons.mpr ⟨_, hbegin, ht⟩⟩
  · obtain ⟨u, hu, hrest⟩ := System.runFrom_cons.mp hrun
    obtain ⟨v, hv, hend⟩ := System.runFrom_append.mp hrest
    have hbegin : s.step .updateBegins = some u := hu
    obtain ⟨after, hlive, hsweeping⟩ :=
      (sweeping_of_updateBegins hi hbegin).run (hi.step hbegin) hv hes
    obtain ⟨w, hw, hdone⟩ := System.runFrom_cons.mp hend
    obtain ⟨rfl, hsockets, hremoved, hadded, hnew⟩ := hsweeping.updateEnds hw
    obtain rfl := Option.some.inj hdone
    rw [List.append_nil] at hlive
    refine ⟨hlive.symm, ?_, ?_, ?_⟩
    · rw [hsockets, hsweeping.sockets, List.nil_append, List.append_nil, ← hlive, live,
        List.filter_append, List.filter_append, List.filter_filter]
      simp
    · rw [hremoved, hsweeping.removed, List.nil_append, ← hlive, live, List.filter_append,
        List.filter_append, List.filter_filter]
      simp
    · rw [hadded, hnew, hsweeping.waiting]

def threeOpened : List (Event Nat) :=
  [.socketOpen 0, .addSocket, .socketOpen 1, .addSocket, .updateBegins,
    .updateSocket 0 fun _ _ => .wouldBlock, .updateSocket 1 fun _ _ => .wouldBlock, .updateEnds,
    .callback 0 .readError, .socketOpen 2, .addSocket]

def oneTick : List (Event Nat) :=
  [.updateSocket 0 fun _ _ => .wouldBlock, .socketOpen 3, .addSocket,
    .updateSocket 1 fun _ _ => .wouldBlock, .updateSocket 2 fun _ _ => .wouldBlock]

theorem tick_sweeps_threeOpened : ∃ s t, (system Nat).runFrom new threeOpened = some s ∧
    (system Nat).runFrom s (.updateBegins :: oneTick ++ [.updateEnds]) = some t ∧
    t.sockets = (s.sockets ++ s.newSockets).filter s.isOpen ∧ s.live = [0, 1, 2] := by
  obtain ⟨s, hs, hidle⟩ := (Option.any_eq_true
    (fun s : AuthServer Nat => s.failure.isNone && s.sweep.isNone &&
      ((system Nat).runFrom s (.updateBegins :: oneTick ++ [.updateEnds])).isSome)
    ((system Nat).runFrom new threeOpened)).mp (by decide +kernel)
  rw [Bool.and_eq_true, Bool.and_eq_true, Option.isNone_iff_eq_none, Option.isNone_iff_eq_none,
    Option.isSome_iff_exists] at hidle
  obtain ⟨⟨hf, hsweep⟩, t, ht⟩ := hidle
  obtain ⟨hlive, hsockets, -⟩ := (tick_sweeps ⟨threeOpened, hs⟩ hf hsweep).2 oneTick t
    (by simp [oneTick]) ht
  exact ⟨s, t, hs, ht, hsockets, hlive.symm⟩

/-! ## Connections that are not given back -/

theorem added_subset (he : s.step e = some t) : s.added ⊆ t.added := by
  obtain ⟨-, hsteps⟩ := steps_of_step he
  cases hsteps with
  | addSocket => exact List.subset_append_left _ _
  | updateBegins =>
    have hadded := (NetworkThread.keeps_foldl_addNewSocket s.newSockets s.toNetworkThread).1
    exact fun i hmem => hadded.symm ▸ hmem
  | updateSocket _ _ hu => exact fun i hmem => (NetworkThread.keeps_updateSocket hu).1.symm ▸ hmem
  | socketOpen | callback | updateEnds => exact List.Subset.refl _

theorem added_run (hi : s.Inv) (hrun : (system ι).runFrom s es = some t) (hadded : i ∈ s.added) :
    i ∈ t.added ∧ AuthSession.system.runFrom (s.client i) (es.filterMap (Event.of i)) =
      some (t.client i) := by
  have hstill : i ∈ t.added :=
    (system ι).runFrom_invariant (I := fun u => i ∈ u.added)
      (fun _ _ _ h he => added_subset he h) hadded hrun
  have hclient := (clients ι).run_from hi hrun i
  rw [show (clients ι).party s i = s.client i from if_pos (.inl hadded),
    show (clients ι).party t i = t.client i from if_pos (.inl hstill)] at hclient
  exact ⟨hstill, hclient⟩

/-- The stranded sessions are those of the clients from which a read has left an unknown
command, the beginning of a message for one. Each of them has one of the connections of
the thread for ever. -/
theorem stranded_connections (hrun : (system ι).runFrom new es = some t) :
    (∀ i, t.Opened i → (AuthSession.Stranded (t.client i) ↔
      ¬AuthSession.system.Along AuthSession.KnownCommand AuthSession.system.start
        (es.filterMap (Event.of i)))) ∧
    ∀ is : List ι, is.Nodup → (∀ i ∈ is, i ∈ t.added ∧ AuthSession.Stranded (t.client i)) →
      ∀ fs u, (system ι).runFrom t fs = some u →
      (∀ i ∈ is, AuthSession.Stranded (u.client i) ∧ i ∈ u.newSockets ++ u.sockets) ∧
      (u.newSockets.length + u.sockets.length < 2 ^ 31 → is.length ≤ u.connections) := by
  have hi : t.Inv := inv_run hrun
  refine ⟨fun i ho => AuthSession.stranded_run_iff (client_run hrun ho), ?_⟩
  intro is hnodup his fs u hu
  have hinv : u.Inv := (clients ι).inv_run hi hu
  have hall : ∀ i ∈ is, AuthSession.Stranded (u.client i) ∧ i ∈ u.newSockets ++ u.sockets := by
    intro i hmem
    obtain ⟨hadded, hstranded⟩ := his i hmem
    obtain ⟨hstill, hclient⟩ := added_run hi hu hadded
    have hs := AuthSession.stranded_forever (hi.sessions i) hstranded hclient
    refine ⟨hs, ?_⟩
    rcases List.mem_append.mp (hinv.thread.places.symm.subset hstill) with hplace | hremoved
    · exact hplace
    · -- it would have been closed
      have hclosed := hinv.thread.removed i hremoved
      exact absurd ((Socket.isOpen_of_closed hclosed).symm.trans hs.2.1) nofun
  refine ⟨hall, fun hlt => ?_⟩
  have hcount := (hnodup.subperm fun i hmem => (hall i hmem).2).length_le
  rw [List.length_append] at hcount
  rw [hinv.thread.connections, Int.bmod_eq_of_le (by omega) (by omega)]
  omega

theorem stranded_connections_three : ∃ t, (system Nat).runFrom new threeClients = some t ∧
    ∀ fs u, (system Nat).runFrom t fs = some u → 1 ∈ u.newSockets ++ u.sockets := by
  obtain ⟨t, ht, hidle⟩ := (Option.any_eq_true
    (fun t : AuthServer Nat => decide (1 ∈ t.added) && ((t.client 1).failure.isNone &&
      ((t.client 1).session.isOpen && (t.client 1).session.reads.isEmpty)))
    ((system Nat).runFrom new threeClients)).mp (by decide +kernel)
  simp only [Bool.and_eq_true, decide_eq_true_eq, Option.isNone_iff_eq_none,
    List.isEmpty_iff] at hidle
  obtain ⟨hadded, hf, ho, hr⟩ := hidle
  refine ⟨t, ht, fun fs u hu => ?_⟩
  have hall := (stranded_connections ht).2 [1] (List.nodup_singleton 1)
    (List.forall_mem_singleton.mpr ⟨hadded, hf, ho, hr⟩) fs u hu
  exact (hall.1 1 (List.mem_singleton_self 1)).2

end AuthServer
end Warhead
