import WarheadFix.Server.Answered
import WarheadFix.Server.Ticks

/-! From a logon to its answer. What a session has queued goes out with the next tick if the
kernel takes it, unless the session has been closed by then or waits for the kernel already. -/

namespace Warhead
open Lib

namespace Socket
variable {s t : Socket} {net : Net}

def TakesAll (net : Net) : Prop := ∀ n size, net n size = .sent size

theorem Handles.takesAll {answer : Nat → WriteResult} {r : Socket × Bool}
    (h : Handles answer s r) (hanswer : ∀ size, answer size = .sent size) (hqueue : QueueInv s)
    (hdone : r.2 = false) : r.1.writeQueue = [] := by
  cases h with
  | empty hq => exact hq
  | waits _ ha =>
    rw [hanswer] at ha
    exact absurd ha (by simp)
  | @drops b rest hq ha =>
    have hpos := hqueue.pending b (hq ▸ List.mem_cons_self ..)
    rcases ha with ha | ha
    · exact absurd ((hanswer _).symm.trans ha) nofun
    · exact absurd (WriteResult.sent.inj ((hanswer _).symm.trans ha)) (Nat.ne_of_gt hpos)
  | @sends b rest n _ ha _ hlt =>
    exact absurd (WriteResult.sent.inj ((hanswer _).symm.trans ha)) (Nat.ne_of_gt hlt)
  | @finishes b rest n hq =>
    have hrest : rest = [] := by simpa using hdone
    rw [popPacket_writeQueue]
    exact (congrArg List.tail hq).trans hrest

theorem drain_takesAll (hnet : TakesAll net) {fuel n : Nat} (hqueue : QueueInv s)
    (h : drain net fuel n s = some t) : t.writeQueue = [] := by
  induction fuel generalizing s n with
  | zero => cases h
  | succ fuel ih =>
    have hone := handleQueue_handles (net n) s
    have hkeeps := hqueue.handles hone
    have hdone := hone.takesAll (hnet n) hqueue
    rcases hh : s.handleQueue (net n) with ⟨u, goesOn⟩
    rw [hh] at hkeeps hdone
    simp only [drain, hh] at h
    cases goesOn with
    | true => exact ih hkeeps h
    | false => exact Option.some.inj h ▸ hdone rfl

theorem update_takesAll (hnet : TakesAll net) {fuel : Nat} {more : Bool} (hqueue : QueueInv s)
    (h : s.update net fuel = some (t, more)) :
    t.writeQueue = [] ↔ s.writeQueue = [] ∨ s.closed = false ∧ s.isWritingAsync = false := by
  unfold update at h
  split_ifs at h with hc hw
  · obtain ⟨rfl, -⟩ := Prod.mk.inj (Option.some.inj h)
    simp [hc]
  · obtain ⟨rfl, -⟩ := Prod.mk.inj (Option.some.inj h)
    rw [Bool.or_eq_true, Bool.and_eq_true, List.isEmpty_iff] at hw
    rcases hw with hw | ⟨hempty, -⟩
    · simp [hw]
    · simp [hempty]
  · obtain ⟨u, hd, hut⟩ := Option.map_eq_some_iff.mp h
    obtain ⟨rfl, -⟩ := Prod.mk.inj hut
    rw [Bool.or_eq_true, not_or] at hw
    refine iff_of_true (drain_takesAll hnet hqueue hd) (.inr ⟨?_, ?_⟩)
    · exact Bool.eq_false_of_not_eq_true hc
    · exact Bool.eq_false_of_not_eq_true hw.1

theorem QueueInv.activeBytes_eq_nil (h : QueueInv s) :
    activeBytes s.writeQueue = [] ↔ s.writeQueue = [] := by
  cases hq : s.writeQueue with
  | nil => simp [activeBytes]
  | cons b rest =>
    have hb : b ∈ s.writeQueue := hq ▸ List.mem_cons_self ..
    have hlength := MessageBuffer.length_active (h.valid b hb)
    have hpos := h.pending b hb
    rw [activeBytes_cons, List.append_eq_nil_iff]
    refine iff_of_false (fun hnil => ?_) (List.cons_ne_nil b rest)
    rw [hnil.1, List.length_nil] at hlength
    omega

end Socket

namespace AuthSession
variable {p q : Process} {ds : List Event}

theorem delivers_of_takesAll {net : Net} (h : Socket.TakesAll net) : (Event.update net).Delivers :=
  fun n size hsize => .inr (.inr ⟨size, h n size, hsize, le_rfl⟩)

theorem handled_of_updates (hds : ∀ d ∈ ds, ∃ net, d = .update net)
    (hrun : system.runFrom p ds = some q) :
    q.session.handled = p.session.handled ∧ readEnvs ds = [] := by
  induction ds generalizing p with
  | nil => exact ⟨Option.some.inj hrun ▸ rfl, rfl⟩
  | cons d ds ih =>
    obtain ⟨⟨net, rfl⟩, hupdates⟩ := List.forall_mem_cons.mp hds
    obtain ⟨m, hm, hrest⟩ := System.runFrom_cons.mp hrun
    obtain ⟨hhandled, henvs⟩ := ih hupdates hrest
    refine ⟨hhandled.trans ?_, henvs⟩
    have hstep : step p (.update net) = some m := hm
    unfold step at hstep
    rw [Option.ite_none_left_eq_some] at hstep
    obtain ⟨x, -, rfl⟩ := Option.map_eq_some_iff.mp hstep.2
    rfl

end AuthSession

namespace AuthServer
variable {ι : Type} [DecidableEq ι] {s₀ s t : AuthServer ι} {done rest : List ι} {i : ι}
  {e : Event ι} {es : List (Event ι)}

/-! ## What a tick is for one client -/

theorem Sweeping.no_callback (h : Sweeping s₀ done rest s) (hi : s.Inv)
    (hrun : (system ι).runFrom s es = some t) (hes : .updateEnds ∉ es) :
    ∀ j d, .callback j d ∉ es := by
  induction es generalizing s done rest with
  | nil => exact fun _ _ => List.not_mem_nil
  | cons e es ih =>
    obtain ⟨u, hu, hrest⟩ := System.runFrom_cons.mp hrun
    obtain ⟨hne, hes⟩ := not_or.mp (List.mem_cons.not.mp hes)
    obtain ⟨after, rfl, hnext⟩ := h.step hi hu (Ne.symm hne)
    intro j d hmem
    rcases List.mem_cons.mp hmem with rfl | hmem
    · cases (steps_of_step hu).2 with
      | callback hsweep => exact absurd (hsweep.symm.trans h.sweep) nofun
    · exact ih hnext (hi.step hu) hrest hes j d hmem

theorem filterMap_of (hes : ∀ j d, .callback j d ∉ es) :
    (es.filterMap (Event.of i)).length = (es.filterMap Event.updated).count i ∧
    ∀ d ∈ es.filterMap (Event.of i), ∃ net, d = .update net ∧ .updateSocket i net ∈ es := by
  induction es with
  | nil => exact ⟨rfl, fun _ hd => absurd hd List.not_mem_nil⟩
  | cons e es ih =>
    obtain ⟨hlength, hall⟩ := ih fun j d hmem => hes j d (List.mem_cons_of_mem _ hmem)
    have hrest : ∀ d ∈ es.filterMap (Event.of i), ∃ net, d = .update net ∧
        .updateSocket i net ∈ e :: es := fun d hd => by
      obtain ⟨net, hnet, hmem⟩ := hall d hd
      exact ⟨net, hnet, List.mem_cons_of_mem _ hmem⟩
    cases e with
    | callback j d => exact absurd (List.mem_cons_self ..) (hes j d)
    | updateSocket j net =>
      rw [List.filterMap_cons_some (f := Event.updated) rfl, List.count_cons]
      by_cases hj : j = i
      · subst hj
        have hown : Event.of j (.updateSocket j net) = some (.update net) := if_pos rfl
        rw [List.filterMap_cons_some hown, List.length_cons, hlength]
        refine ⟨by simp, List.forall_mem_cons.mpr ⟨⟨net, rfl, List.mem_cons_self ..⟩, hrest⟩⟩
      · have hother : Event.of i (.updateSocket j net) = none := if_neg hj
        rw [List.filterMap_cons_none hother, hlength]
        exact ⟨by simp [hj], hrest⟩
    | socketOpen | addSocket | updateBegins | updateEnds => exact ⟨hlength, hrest⟩

theorem Inv.nodup_live (h : s.Inv) : s.live.Nodup := by
  have hall := h.thread.places.nodup_iff.mpr h.thread.nodup
  obtain ⟨hplaces, -, -⟩ := List.nodup_append.mp hall
  obtain ⟨hnew, hsockets, hdisjoint⟩ := List.nodup_append.mp hplaces
  refine List.nodup_append.mpr ⟨hsockets, hnew.filter _, fun a ha b hb => ?_⟩
  exact (hdisjoint b (List.mem_filter.mp hb).1 a ha).symm

theorem tick_client (hi : s.Inv) (hes : .updateEnds ∉ es)
    (hrun : (system ι).runFrom s (.updateBegins :: es ++ [.updateEnds]) = some t)
    (hadded : i ∈ s.added) : ∃ ds, AuthSession.system.runFrom (s.client i) ds = some (t.client i) ∧
      ds.length = s.live.count i ∧ ∀ d ∈ ds, ∃ net, d = .update net ∧ .updateSocket i net ∈ es := by
  obtain ⟨u, hu, hrest⟩ := System.runFrom_cons.mp hrun
  obtain ⟨v, hv, hend⟩ := System.runFrom_append.mp hrest
  obtain ⟨w, hw, -⟩ := System.runFrom_cons.mp hend
  have hbegin : s.step .updateBegins = some u := hu
  have hsweeping := sweeping_of_updateBegins hi hbegin
  obtain ⟨after, hlive, hlast⟩ := hsweeping.run (hi.step hbegin) hv hes
  obtain ⟨rfl, -⟩ := hlast.updateEnds hw
  obtain ⟨hlength, hall⟩ := filterMap_of (i := i) (hsweeping.no_callback (hi.step hbegin) hv hes)
  have hevents : (Event.updateBegins :: es ++ [Event.updateEnds]).filterMap (Event.of i) =
      es.filterMap (Event.of i) := by
    rw [List.cons_append, List.filterMap_cons_none rfl, List.filterMap_append]
    exact List.append_nil _
  rw [List.append_nil] at hlive
  obtain ⟨-, hclient⟩ := added_run hi hrun hadded
  rw [hevents] at hclient
  exact ⟨_, hclient, by rw [hlength, hlive], hall⟩

theorem tick_writeQueue (hi : s.Inv) (hqueue : (s.socket i).QueueInv) (hes : .updateEnds ∉ es)
    (hrun : (system ι).runFrom s (.updateBegins :: es ++ [.updateEnds]) = some t)
    (hplace : i ∈ s.sockets ++ s.newSockets)
    (hnet : ∀ net, .updateSocket i net ∈ es → Socket.TakesAll net) :
    (t.session i).writeQueue = [] ↔ (s.session i).writeQueue = [] ∨
      (s.session i).isOpen = true ∧ (s.session i).isWritingAsync = false := by
  have hadded : i ∈ s.added := hi.thread.places.subset
    (List.mem_append_left _ (List.perm_append_comm.subset hplace))
  obtain ⟨ds, hds, hlength, hall⟩ := tick_client hi hes hrun hadded
  have hopen : (s.session i).isOpen = !(s.session i).closed := hi.isOpen_eq i
  rw [hi.nodup_live.count] at hlength
  split_ifs at hlength with hlive
  · obtain ⟨d, rfl⟩ := List.length_eq_one_iff.mp hlength
    obtain ⟨net, rfl, hmem⟩ := hall d (List.mem_singleton_self d)
    obtain ⟨p, hp, hlast⟩ := System.runFrom_cons.mp hds
    obtain rfl := Option.some.inj hlast
    have hstep : AuthSession.step (s.client i) (.update net) = some (t.client i) := hp
    unfold AuthSession.step at hstep
    rw [Option.ite_none_left_eq_some] at hstep
    obtain ⟨⟨u, more⟩, hu, ht⟩ := Option.map_eq_some_iff.mp hstep.2
    have hqueue' : (t.session i).writeQueue = u.writeQueue :=
      congrArg (fun p => p.session.writeQueue) ht.symm
    rw [hqueue', hopen, Bool.not_eq_true']
    exact Socket.update_takesAll (hnet net hmem) hqueue hu
  · -- it is closed, and its turn does not come
    obtain rfl := List.length_eq_zero_iff.mp hlength
    have hsame : t.session i = s.session i :=
      congrArg AuthSession.Process.session (Option.some.inj hds).symm
    have hclosed : (s.session i).isOpen = false := by
      apply Bool.eq_false_of_not_eq_true
      intro ho
      rcases List.mem_append.mp hplace with hsocket | hnew
      · exact hlive (List.mem_append_left _ hsocket)
      · exact hlive (List.mem_append_right _ (List.mem_filter.mpr ⟨hnew, ho⟩))
    rw [hsame, hclosed]
    simp

open AuthSession in
/-- From the logon of a client to its answer, whatever the other clients do: as long as the kernel
has not failed its connection, what the client has been sent is the beginning of the answer to
the logon that the server has accepted from it; and a tick in which the kernel takes all it is
offered completes the answer, unless the session has been closed before it, with the answer
still in its queue, or already waits for the kernel. -/
theorem tick_answers (hrun : (system ι).runFrom new es = some s)
    (hdelivers : ∀ e ∈ es.filterMap (Event.of i), e.Delivers)
    (hplace : i ∈ s.sockets ++ s.newSockets) {fs : List (Event ι)} (hfs : .updateEnds ∉ fs)
    (htick : (system ι).runFrom s (.updateBegins :: fs ++ [.updateEnds]) = some t)
    (hnet : ∀ net, .updateSocket i net ∈ fs → Socket.TakesAll net)
    {r : HandlerRun} (hr : (s.session i).handled.filter HandlerRun.answered = [r]) :
    ∃ env text, env ∈ readEnvs (es.filterMap (Event.of i)) ∧
      FixMessage.replyText env = .ok text ∧ (t.session i).accepted <+: r.answer text ∧
      ((t.session i).accepted = r.answer text ↔ (s.session i).writeQueue = [] ∨
        (s.session i).isOpen = true ∧ (s.session i).isWritingAsync = false) := by
  have hi : s.Inv := inv_run hrun
  have hadded : i ∈ s.added := hi.thread.places.subset
    (List.mem_append_left _ (List.perm_append_comm.subset hplace))
  have hown := client_run hrun (.inl hadded)
  obtain ⟨ds, hds, -, hall⟩ := tick_client hi hfs htick hadded
  have hupdates : ∀ d ∈ ds, ∃ net, d = .update net := fun d hd => by
    obtain ⟨net, hnet, -⟩ := hall d hd
    exact ⟨net, hnet⟩
  obtain ⟨hhandled, henvs⟩ := handled_of_updates hupdates hds
  have hwhole : AuthSession.system.runFrom AuthSession.system.start
      (es.filterMap (Event.of i) ++ ds) = some (t.client i) :=
    System.runFrom_append.mpr ⟨_, hown, hds⟩
  have hall_deliver : ∀ e ∈ es.filterMap (Event.of i) ++ ds, e.Delivers := by
    refine List.forall_mem_append.mpr ⟨hdelivers, fun d hd => ?_⟩
    obtain ⟨net, rfl, hmem⟩ := hall d hd
    exact delivers_of_takesAll (hnet net hmem)
  have ha := answered_of_run hwhole
  have hconserved := conserved_of_run hall_deliver hwhole
  have hlog : (t.session i).handled.filter HandlerRun.answered = [r] :=
    (congrArg (List.filter HandlerRun.answered) hhandled).trans hr
  rcases ha.cases with ⟨hnone, -⟩ | ⟨r', env, text, hr', henv, htext, hbytes⟩
  · exact absurd (hlog.symm.trans hnone) nofun
  · obtain rfl : r = r' := (List.cons.inj (hlog.symm.trans hr')).1
    rw [readEnvs_append, henvs, List.append_nil] at henv
    have haccepted := ha.socket.accepted
    rw [hbytes] at haccepted
    refine ⟨env, text, henv, htext, haccepted, ?_⟩
    have hqueue : (s.socket i).QueueInv := (answered_of_run hown).socket.queue
    have hempty : Socket.activeBytes (t.session i).writeQueue = [] ↔
        (t.session i).writeQueue = [] := ha.socket.queue.activeBytes_eq_nil
    have hflow : (t.session i).accepted ++ Socket.activeBytes (t.session i).writeQueue =
        r.answer text := hconserved.trans hbytes
    rw [← tick_writeQueue hi hqueue hfs htick hplace hnet, ← hempty, ← hflow]
    exact List.self_eq_append_right

def takesAll : Net := fun _ size => .sent size

def oneLogon : List (Event Nat) :=
  [.socketOpen 0, .callback 0 (.readCompletion AuthSession.sampleEnv
    (Hffix.fixText AuthSession.sampleLogon)), .addSocket]

def tickAfter : List (Event Nat) := [.updateSocket 0 takesAll, .socketOpen 1]

theorem tick_answers_oneLogon : ∃ s t r env text, (system Nat).runFrom new oneLogon = some s ∧
    (system Nat).runFrom s (.updateBegins :: tickAfter ++ [.updateEnds]) = some t ∧
    (s.session 0).handled.filter HandlerRun.answered = [r] ∧
    FixMessage.replyText env = .ok text ∧ (t.session 0).accepted = r.answer text := by
  obtain ⟨s, hs, h⟩ := (Option.any_eq_true
    (fun s : AuthServer Nat => decide (0 ∈ s.sockets ++ s.newSockets) &&
      ((s.session 0).isOpen && (!(s.session 0).isWritingAsync &&
      (((s.session 0).handled.filter HandlerRun.answered).length == 1 &&
      ((system Nat).runFrom s (.updateBegins :: tickAfter ++ [.updateEnds])).isSome))))
    ((system Nat).runFrom new oneLogon)).mp (by decide +kernel)
  simp only [Bool.and_eq_true, decide_eq_true_eq, Bool.not_eq_true', beq_iff_eq,
    Option.isSome_iff_exists] at h
  obtain ⟨hplace, ho, hw, hlength, t, ht⟩ := h
  obtain ⟨r, hr⟩ := List.length_eq_one_iff.mp hlength
  obtain ⟨env, text, -, htext, -, hiff⟩ := tick_answers (i := 0) hs (by simp [oneLogon, Event.of,
    AuthSession.Event.Delivers]) hplace (by simp [tickAfter]) ht (by
      intro net hmem
      simp only [tickAfter, List.mem_cons, Event.updateSocket.injEq, true_and, reduceCtorEq,
        List.not_mem_nil, or_false] at hmem
      exact hmem ▸ fun _ _ => rfl) hr
  exact ⟨s, t, r, env, text, hs, ht, hr, htext, hiff.mpr (.inr ⟨ho, hw⟩)⟩

end AuthServer
end Warhead
