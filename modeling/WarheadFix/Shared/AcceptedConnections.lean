import WarheadFix.Lib.LeastLoaded
import WarheadFix.Shared.NetworkThread
import WarheadFix.Shared.SocketMgr

/-! The manager together with its network threads. A connection is counted by the thread that was
chosen when its accept was armed, and whatever comes of an accept, the next one is armed. -/

namespace Warhead.SocketMgr
open Lib LeastLoaded Finset

structure Network (ι : Type) where
  manager : SocketMgr
  thread : Nat → NetworkThread ι

namespace Network
variable {ι : Type}

def connections (thread : Nat → NetworkThread ι) (index : Nat) : Int := (thread index).connections

def start (n : Nat) : Option (Network ι) :=
  match SocketMgr.startNetwork n true n .new with
  | some (m, true) => some ⟨m, fun _ => .new⟩
  | _ => none

inductive Event (ι : Type) where
  | armed
  | accepted (result : Accepted) (sock : ι)
  | thread (index : Nat) (e : NetworkThread.Event ι)

namespace Event

def isArmed : Event ι → Bool
  | armed => true
  | _ => false

def isOpened : Event ι → Bool
  | accepted .opened _ => true
  | _ => false

end Event

section Steps
variable [DecidableEq ι]

def onSocketOpen (thread : Nat → NetworkThread ι) (threadIndex : Nat) (sock : ι) :
    Accepted → Option (Nat → NetworkThread ι)
  | .opened => ((thread threadIndex).step (.addSocket sock)).map (Function.update thread threadIndex)
  | _ => some thread

/-- The threads go on before an accept ends and before the next one is armed, but not during the
search. Only the manager adds sockets. -/
def step (s : Network ι) : Event ι → Option (Network ι)
  | .armed =>
    if s.manager.accepting.isSome || s.manager.closed then none
    else some { s with manager := s.manager.asyncAcceptWithCallback fun _ => connections s.thread }
  | .accepted result sock => do
    let threadIndex ← s.manager.accepting
    let thread ← onSocketOpen s.thread threadIndex sock result
    return ⟨{ s.manager.onSocketOpen threadIndex result with accepting := none }, thread⟩
  | .thread _ (.addSocket _) => none
  | .thread index e =>
    if index < s.manager.allocated then
      ((s.thread index).step e).map fun t => { s with thread := Function.update s.thread index t }
    else none

def running (s : Network ι) : System (Network ι) (Event ι) := ⟨s, step⟩

end Steps

/-! ## Armed accepts -/

variable {s t : Network ι} {n : Nat}

structure Serves (n : Nat) (m : SocketMgr) : Prop where
  some_thread : 0 < n
  closed : m.closed = false
  count : m.threadCount = n
  allocated : m.allocated = n

theorem start_eq (h : start n = some s) :
    0 < n ∧ s = ⟨⟨true, n, false, none, n, List.range n⟩, fun _ => .new⟩ := by
  unfold start at h
  split at h
  case h_2 => cases h
  case h_1 m hstart =>
    obtain ⟨hpos, rfl⟩ := startNetwork_eq hstart
    exact ⟨Int.natCast_pos.mp hpos, (Option.some.inj h).symm⟩

theorem selectRound_fst (c : Nat → Int) (is : List Nat) (m : Nat) (used : List Nat) :
    (is.foldl (selectRound fun _ => c) (m, used)).1 =
      is.foldl (fun m i => if c i < c m then i else m) m := by
  induction is generalizing m used with
  | nil => rfl
  | cons i is ih => exact ih _ _

theorem armed_least {m : SocketMgr} (h : Serves n m) (c : Nat → Int) :
    ∃ k, (m.asyncAcceptWithCallback fun _ => c).accepting = some k ∧ Least (range n) c k := by
  have hfold := foldl_least c (List.range' 1 (m.threadCount.toNat - 1)) 0
  have hall : ∀ i, i ∈ 0 :: List.range' 1 (m.threadCount.toNat - 1) ↔ i ∈ range n := by
    intro i
    have hpos := h.some_thread
    rw [List.mem_cons, List.mem_range'_1, mem_range, h.count]
    omega
  rw [← selectRound_fst c _ 0 []] at hfold
  exact ⟨_, rfl, (hall _).mp hfold.1, fun j hj => hfold.2 j ((hall j).mpr hj)⟩

/-! ## Loads -/

structure Inv (n : Nat) (s : Network ι) : Prop where
  serves : Serves n s.manager
  accepting : ∀ k ∈ s.manager.accepting, k ∈ range n
  threads : ∀ j, (s.thread j).Inv

def load (thread : Nat → NetworkThread ι) (index : Nat) : Int := (thread index).added.length

def NoneRemoved (n : Nat) (s : Network ι) : Prop := ∀ j ∈ range n, (s.thread j).removed = []

theorem load_addSocket (thread : Nat → NetworkThread ι) (k : Nat) (sock : ι) :
    load (Function.update thread k ((thread k).addSocket sock)) =
      Function.update (load thread) k (load thread k + 1) := by
  funext j
  unfold load
  rcases eq_or_ne j k with rfl | hj
  · rw [Function.update_self, Function.update_self, NetworkThread.addSocket, List.length_append]
    rfl
  · rw [Function.update_of_ne hj, Function.update_of_ne hj]

theorem load_thread {thread : Nat → NetworkThread ι} {k : Nat} {u : NetworkThread ι}
    (h : (thread k).Keeps u) : load (Function.update thread k u) = load thread := by
  funext j
  unfold load
  rcases eq_or_ne j k with rfl | hj
  · rw [Function.update_self, h.1]
  · rw [Function.update_of_ne hj]

def capacity (n : Nat) : Int := n * (2 ^ 31 - 1)

theorem connections_eq_load (h : Inv n s) (hnone : NoneRemoved n s)
    (hbalanced : Balanced (range n) (load s.thread))
    (hsum : ∑ j ∈ range n, load s.thread j ≤ capacity n) :
    ∀ j ∈ range n, connections s.thread j = load s.thread j := by
  intro j hj
  have hle : load s.thread j ≤ 2 ^ 31 - 1 := by
    refine hbalanced.le_of_sum_le ?_ j hj
    rwa [card_range]
  have hpos : 0 ≤ load s.thread j := Int.natCast_nonneg _
  rw [connections, (h.threads j).connections_eq, hnone j hj]
  change Int.bmod (load s.thread j - 0) (2 ^ 32) = load s.thread j
  rw [sub_zero]
  exact Int.bmod_eq_of_le (by omega) (by omega)

/-! ## What a step preserves -/

variable [DecidableEq ι]

theorem step_armed (h : s.step .armed = some t) : s.manager.accepting = none ∧
    s.manager.closed = false ∧ t = { s with
      manager := s.manager.asyncAcceptWithCallback fun _ => connections s.thread } := by
  simp only [Network.step, Option.ite_none_left_eq_some, Option.some.injEq, Bool.or_eq_true,
    not_or, Bool.not_eq_true, Option.isSome_eq_false_iff, Option.isNone_iff_eq_none] at h
  exact ⟨h.1.1, h.1.2, h.2.symm⟩

theorem step_accepted {result : Accepted} {sock : ι}
    (h : s.step (.accepted result sock) = some t) : ∃ k, s.manager.accepting = some k ∧
      onSocketOpen s.thread k sock result = some t.thread ∧
      t.manager = { s.manager.onSocketOpen k result with accepting := none } := by
  simp only [Network.step, Option.bind_eq_bind, Option.bind_eq_some_iff, Option.pure_def,
    Option.some.injEq] at h
  obtain ⟨k, hk, thread, hthread, rfl⟩ := h
  exact ⟨k, hk, hthread, rfl⟩

theorem step_accepted_armed {u : Network ι} {result : Accepted} {sock : ι}
    (ht : s.step (.accepted result sock) = some t) (hu : t.step .armed = some u) :
    s.manager.step (.accepted result fun _ => connections t.thread) = some u.manager := by
  obtain ⟨k, hk, -, hmanager⟩ := step_accepted ht
  obtain ⟨-, hopen, rfl⟩ := step_armed hu
  rw [hmanager] at hopen ⊢
  have hclosed : (s.manager.onSocketOpen k result).closed = false := hopen
  simp only [SocketMgr.step, hk]
  rw [if_neg (by rw [hclosed]; decide)]
  rfl

theorem step_thread {index : Nat} {e : NetworkThread.Event ι}
    (h : s.step (.thread index e) = some t) : ∃ u, (s.thread index).step e = some u ∧
      (∀ i, e ≠ .addSocket i) ∧ t = { s with thread := Function.update s.thread index u } := by
  cases e with
  | addSocket i => cases h
  | _ =>
    simp only [Network.step, Option.ite_none_right_eq_some, Option.map_eq_some_iff] at h
    obtain ⟨-, u, hu, rfl⟩ := h
    exact ⟨u, hu, nofun, rfl⟩

theorem onSocketOpen_opened {thread thread' : Nat → NetworkThread ι} {k : Nat} {sock : ι}
    (h : onSocketOpen thread k sock .opened = some thread') :
    sock ∉ (thread k).added ∧ thread' = Function.update thread k ((thread k).addSocket sock) := by
  simp only [onSocketOpen, NetworkThread.step] at h
  split_ifs at h with hmem
  · cases h
  · exact ⟨hmem, (Option.some.inj h).symm⟩

theorem forall_thread_step {P : Nat → NetworkThread ι → Prop}
    (hP : ∀ j u u' d, P j u → u.step d = some u' → P j u') (h : ∀ j, P j (s.thread j))
    {e : Event ι} (he : s.step e = some t) : ∀ j, P j (t.thread j) := by
  have hupdate : ∀ k u d, (s.thread k).step d = some u →
      ∀ j, P j (Function.update s.thread k u j) := fun k u d hu =>
    (Function.forall_update_iff s.thread P).mpr ⟨hP k _ u d (h k) hu, fun j _ => h j⟩
  cases e with
  | armed =>
    obtain ⟨-, -, rfl⟩ := step_armed he
    exact h
  | accepted result sock =>
    obtain ⟨k, -, hthread, -⟩ := step_accepted he
    cases result with
    | opened =>
      obtain ⟨u, hu, hthread⟩ := Option.map_eq_some_iff.mp hthread
      rw [← hthread]
      exact hupdate k u _ hu
    | failed | refused => exact Option.some.inj hthread ▸ h
  | thread index e =>
    obtain ⟨u, hu, -, rfl⟩ := step_thread he
    exact hupdate index u e hu

theorem Inv.step {e : Event ι} (h : Inv n s) (he : s.step e = some t) : Inv n t := by
  have hthreads := forall_thread_step (fun _ _ _ _ hu => hu.step) h.threads he
  obtain ⟨hpos, hclosed, hcount, hallocated⟩ := h.serves
  cases e with
  | armed =>
    obtain ⟨-, -, rfl⟩ := step_armed he
    obtain ⟨k, hk, hleast⟩ := armed_least h.serves (connections s.thread)
    refine ⟨⟨hpos, hclosed, hcount, hallocated⟩, fun j hj => ?_, hthreads⟩
    rw [hk] at hj
    exact Option.some.inj hj ▸ hleast.1
  | accepted result sock =>
    obtain ⟨k, -, -, hmanager⟩ := step_accepted he
    refine ⟨?_, ?_, hthreads⟩
    · rw [hmanager]
      cases result <;> exact ⟨hpos, hclosed, hcount, hallocated⟩
    · rw [hmanager]
      exact fun _ hj => absurd hj (Option.not_mem_none _)
  | thread index e =>
    obtain ⟨u, -, -, rfl⟩ := step_thread he
    exact ⟨h.serves, h.accepting, hthreads⟩

theorem removed_prefix {e : Event ι} (he : s.step e = some t) :
    ∀ j, (s.thread j).removed <+: (t.thread j).removed :=
  forall_thread_step (P := fun j u => (s.thread j).removed <+: u.removed)
    (fun _ _ _ _ hu hd => hu.trans (NetworkThread.removed_prefix hd))
    (fun _ => List.prefix_refl _) he

theorem NoneRemoved.of_step {e : Event ι} (h : NoneRemoved n t) (he : s.step e = some t) :
    NoneRemoved n s := fun j hj => by
  have hprefix := removed_prefix he j
  rw [h j hj] at hprefix
  exact List.prefix_nil.mp hprefix

theorem sum_load_step {e : Event ι} (h : Inv n s) (he : s.step e = some t) :
    ∑ j ∈ range n, load t.thread j =
      ∑ j ∈ range n, load s.thread j + if e.isOpened then 1 else 0 := by
  cases e with
  | armed =>
    obtain ⟨-, -, rfl⟩ := step_armed he
    exact (add_zero _).symm
  | accepted result sock =>
    obtain ⟨k, hk, hthread, -⟩ := step_accepted he
    cases result with
    | opened =>
      rw [(onSocketOpen_opened hthread).2, load_addSocket, sum_place (h.accepting k hk)]
      rfl
    | failed | refused =>
      rw [← Option.some.inj hthread]
      exact (add_zero _).symm
  | thread index e =>
    obtain ⟨u, hu, hadd, rfl⟩ := step_thread he
    rw [load_thread (NetworkThread.keeps_step hu hadd)]
    exact (add_zero _).symm

structure Even (n : Nat) (s : Network ι) : Prop where
  balanced : Balanced (range n) (load s.thread)
  accepting : ∀ k ∈ s.manager.accepting, Least (range n) (load s.thread) k

theorem Even.step {e : Event ι} (h : Inv n s) (heven : Even n s) (he : s.step e = some t)
    (hnone : NoneRemoved n t) (hsum : ∑ j ∈ range n, load t.thread j ≤ capacity n) : Even n t := by
  cases e with
  | armed =>
    obtain ⟨-, -, rfl⟩ := step_armed he
    obtain ⟨k, hk, hleast⟩ := armed_least h.serves (connections s.thread)
    refine ⟨heven.balanced, fun j hj => ?_⟩
    rw [hk] at hj
    rw [← Option.some.inj hj]
    exact hleast.congr (connections_eq_load h hnone heven.balanced hsum)
  | accepted result sock =>
    obtain ⟨k, hk, hthread, hmanager⟩ := step_accepted he
    constructor
    · cases result with
      | opened =>
        rw [(onSocketOpen_opened hthread).2, load_addSocket]
        exact heven.balanced.place (heven.accepting k hk)
      | failed | refused => exact Option.some.inj hthread ▸ heven.balanced
    · rw [hmanager]
      exact fun _ hj => absurd hj (Option.not_mem_none _)
  | thread index e =>
    obtain ⟨u, hu, hadd, rfl⟩ := step_thread he
    have hload := load_thread (NetworkThread.keeps_step hu hadd)
    constructor
    · rw [hload]
      exact heven.balanced
    · rw [hload]
      exact heven.accepting

/-! ## Runs -/

variable {s₀ : Network ι} {es : List (Event ι)}

theorem start_even (h : start n = some s) :
    Inv n s ∧ Even n s ∧ ∑ j ∈ range n, load s.thread j = 0 := by
  obtain ⟨hpos, rfl⟩ := start_eq h
  refine ⟨⟨⟨hpos, rfl, rfl, rfl⟩, ?_, ?_⟩, ⟨?_, ?_⟩, sum_const_zero⟩
  · exact fun _ hj => absurd hj (Option.not_mem_none _)
  · exact fun _ => NetworkThread.inv_of_reachable (System.reachable_start _)
  · exact fun _ _ _ _ => Int.zero_le_ofNat 1
  · exact fun _ hj => absurd hj (Option.not_mem_none _)

theorem inv_run (h : Inv n s) (hrun : (running s₀).runFrom s es = some t) : Inv n t :=
  (running s₀).runFrom_invariant (fun _ _ _ hs he => hs.step he) h hrun

theorem sum_load_run (h : Inv n s) (hrun : (running s₀).runFrom s es = some t) :
    ∑ j ∈ range n, load t.thread j =
      ∑ j ∈ range n, load s.thread j + es.countP Event.isOpened := by
  induction es generalizing s with
  | nil =>
    rw [← Option.some.inj hrun]
    exact (add_zero _).symm
  | cons e es ih =>
    obtain ⟨m, hm, hrun⟩ := System.runFrom_cons.mp hrun
    rw [ih (h.step hm) hrun, sum_load_step h hm, List.countP_cons]
    push_cast
    ring

theorem even_run (h : Inv n s) (heven : Even n s) (hrun : (running s₀).runFrom s es = some t)
    (hnone : NoneRemoved n t) (hsum : ∑ j ∈ range n, load t.thread j ≤ capacity n) : Even n t := by
  refine ((running s₀).runFrom_invariant (I := fun s => Inv n s ∧ (NoneRemoved n s →
    ∑ j ∈ range n, load s.thread j ≤ capacity n → Even n s)) ?_ ⟨h, fun _ _ => heven⟩ hrun).2
      hnone hsum
  rintro s e t ⟨hs, heven⟩ he
  refine ⟨hs.step he, fun hnone hsum => ?_⟩
  refine Even.step hs (heven (hnone.of_step he) ?_) he hnone hsum
  rw [sum_load_step hs he] at hsum
  split_ifs at hsum <;> omega

theorem balanced_run_iff (hstart : start n = some s) (hrun : (running s).runFrom s es = some t)
    (hnone : NoneRemoved n t) :
    Balanced (range n) (connections t.thread) ∧
        ∑ j ∈ range n, connections t.thread j = es.countP Event.isOpened ↔
      es.countP Event.isOpened ≤ capacity n := by
  obtain ⟨hinv, heven, hzero⟩ := start_even hstart
  have ht : Inv n t := inv_run hinv hrun
  have hload := sum_load_run hinv hrun
  rw [hzero, zero_add] at hload
  constructor
  · rintro ⟨-, hsum⟩
    have hle : ∀ j ∈ range n, connections t.thread j ≤ 2 ^ 31 - 1 := fun j _ => by
      have hlt := Int.bmod_lt (x := ((t.thread j).added.length - (t.thread j).removed.length : Int))
        (m := 2 ^ 32) (by decide)
      rw [connections, (ht.threads j).connections_eq]
      omega
    have hcard := sum_le_card_nsmul (range n) (connections t.thread) _ hle
    rwa [hsum, card_range, nsmul_eq_mul] at hcard
  · intro hle
    have hsum : ∑ j ∈ range n, load t.thread j ≤ capacity n := hload ▸ hle
    obtain ⟨hbalanced, -⟩ := even_run hinv heven hrun hnone hsum
    have heq := connections_eq_load ht hnone hbalanced hsum
    refine ⟨fun i hi j hj => ?_, (sum_congr rfl heq).trans hload⟩
    rw [heq i hi, heq j hj]
    exact hbalanced i hi j hj

def armedBy (es : List (Event ι)) : List (Event ι) := es.rdropWhile fun e => !e.isArmed

theorem accepting_run {k : Nat} (hrun : (running s₀).runFrom s es = some t)
    (hes : ∀ e ∈ es, e.isArmed = false) (hk : t.manager.accepting = some k) :
    s.manager.accepting = some k := by
  induction es generalizing s with
  | nil => rwa [Option.some.inj hrun]
  | cons e es ih =>
    obtain ⟨hfirst, hrest⟩ := List.forall_mem_cons.mp hes
    obtain ⟨m, hm, hrun⟩ := System.runFrom_cons.mp hrun
    have hnext := ih hrun hrest
    cases e with
    | armed => cases hfirst
    | accepted result sock =>
      obtain ⟨_, -, -, hmanager⟩ := step_accepted hm
      rw [hmanager] at hnext
      cases hnext
    | thread index e =>
      obtain ⟨u, -, -, rfl⟩ := step_thread hm
      exact hnext

theorem armed_run {k : Nat} (hstart : start n = some s)
    (hrun : (running s).runFrom s es = some t) (hk : t.manager.accepting = some k) :
    ∃ armed, (running s).runFrom s (armedBy es) = some armed ∧
      Least (range n) (connections armed.thread) k := by
  obtain ⟨hinv, -, -⟩ := start_even hstart
  have hsplit : armedBy es ++ es.rtakeWhile (fun e => !e.isArmed) = es :=
    List.rdropWhile_append_rtakeWhile
  rw [← hsplit] at hrun
  obtain ⟨armed, harmed, hsince⟩ := System.runFrom_append.mp hrun
  have hk' : armed.manager.accepting = some k := accepting_run hsince (fun e he => by
    simpa using List.mem_rtakeWhile_imp he) hk
  refine ⟨armed, harmed, ?_⟩
  rcases List.eq_nil_or_concat' (armedBy es) with hnil | ⟨fs, e, hlast⟩
  · rw [hnil] at harmed
    rw [← Option.some.inj harmed, (start_eq hstart).2] at hk'
    cases hk'
  · have hlast_armed : e.isArmed = true := by
      have hne : armedBy es ≠ [] := by simp [hlast]
      have hstop := List.rdropWhile_last_not (fun e : Event ι => !e.isArmed) es hne
      change ¬(!((armedBy es).getLast hne).isArmed) = true at hstop
      simpa [hlast] using hstop
    rw [hlast] at harmed
    obtain ⟨m, hm, hone⟩ := System.runFrom_append.mp harmed
    obtain ⟨m', he, hdone⟩ := System.runFrom_cons.mp hone
    obtain rfl := Option.some.inj hdone
    cases e with
    | accepted _ _ | thread _ _ => cases hlast_armed
    | armed =>
      obtain ⟨-, -, rfl⟩ := step_armed he
      obtain ⟨k', hleast, hfewest⟩ := armed_least (inv_run hinv hm).serves (connections m.thread)
      exact Option.some.inj (hleast.symm.trans hk') ▸ hfewest

/-- The threads stay even as long as their counters hold the connections, and every connection
goes where there were fewest when its accept was armed. -/
theorem accepted_connections_balanced {ι : Type} [DecidableEq ι] (n : Nat) (s t : Network ι)
    (es : List (Event ι)) (hstart : start n = some s)
    (hrun : (running s).runFrom s es = some t) :
    (NoneRemoved n t →
      (Balanced (range n) (connections t.thread) ∧
          ∑ j ∈ range n, connections t.thread j = es.countP Event.isOpened ↔
        es.countP Event.isOpened ≤ capacity n)) ∧
    ∀ sock u, t.step (.accepted .opened sock) = some u →
      ∃ armed k, (running s).runFrom s (armedBy es) = some armed ∧
        Least (range n) (connections armed.thread) k ∧
        u.thread = Function.update t.thread k ((t.thread k).addSocket sock) := by
  refine ⟨balanced_run_iff hstart hrun, fun sock u hu => ?_⟩
  obtain ⟨k, hk, hthread, -⟩ := step_accepted hu
  obtain ⟨armed, harmed, hleast⟩ := armed_run hstart hrun hk
  exact ⟨armed, k, harmed, hleast, (onSocketOpen_opened hthread).2⟩

def fourAccepts : List (Event Nat) :=
  [.armed, .accepted .opened 0, .armed, .accepted .failed 1, .armed, .accepted .opened 2,
    .thread 0 .updateBegins, .armed, .accepted .refused 3, .armed]

theorem accepted_connections_balanced_four : ∃ s t : Network Nat, start 2 = some s ∧
    (running s).runFrom s fourAccepts = some t ∧ Balanced (range 2) (connections t.thread) ∧
    ∑ j ∈ range 2, connections t.thread j = 2 ∧
    ∃ u armed k, t.step (.accepted .opened 4) = some u ∧
      (running s).runFrom s (armedBy fourAccepts) = some armed ∧
      Least (range 2) (connections armed.thread) k ∧
      u.thread = Function.update t.thread k ((t.thread k).addSocket 4) := by
  obtain ⟨s, t, u, hstart, hrun, hnone, hu⟩ : ∃ s t u : Network Nat, start 2 = some s ∧
      (running s).runFrom s fourAccepts = some t ∧ NoneRemoved 2 t ∧
      t.step (.accepted .opened 4) = some u := by
    refine ⟨_, _, _, rfl, rfl, fun j hj => ?_, rfl⟩
    have hlt := mem_range.mp hj
    interval_cases j <;> rfl
  obtain ⟨hiff, hnext⟩ := accepted_connections_balanced 2 s t fourAccepts hstart hrun
  obtain ⟨heven, hsum⟩ := (hiff hnone).mpr (by decide)
  obtain ⟨armed, k, harmed, hleast, hthread⟩ := hnext 4 u hu
  exact ⟨s, t, hstart, hrun, heven, hsum, u, armed, k, hu, harmed, hleast, hthread⟩

/-! ## More connections than a counter holds -/

def opens (k : Nat) : List (Event Nat) :=
  (List.range k).flatMap fun i => [.armed, .accepted .opened i]

theorem opens_succ (k : Nat) : opens (k + 1) = opens k ++ [.armed, .accepted .opened k] := by
  rw [opens, List.range_succ, List.flatMap_append, List.flatMap_singleton, opens]

theorem countP_opens (k : Nat) : (opens k).countP Event.isOpened = k := by
  induction k with
  | zero => rfl
  | succ k ih => rw [opens_succ, List.countP_append, ih]; rfl

theorem exists_armed (h : Inv n s) (hidle : s.manager.accepting = none) :
    ∃ t k, s.step .armed = some t ∧ t.manager.accepting = some k ∧ t.thread = s.thread := by
  refine ⟨{ s with manager := s.manager.asyncAcceptWithCallback fun _ => connections s.thread },
    _, ?_, rfl, rfl⟩
  simp only [Network.step, hidle, h.serves.closed]
  rfl

theorem exists_opened {k : Nat} {sock : ι} (hk : s.manager.accepting = some k)
    (hnew : sock ∉ (s.thread k).added) : ∃ t, s.step (.accepted .opened sock) = some t ∧
      t.manager.accepting = none ∧
      t.thread = Function.update s.thread k ((s.thread k).addSocket sock) := by
  refine ⟨⟨{ s.manager.onSocketOpen k .opened with accepting := none }, _⟩, ?_, rfl, rfl⟩
  have hopen : onSocketOpen s.thread k sock .opened =
      some (Function.update s.thread k ((s.thread k).addSocket sock)) := by
    rw [onSocketOpen, NetworkThread.step, if_neg hnew]
    rfl
  simp only [Network.step, hk, Option.bind_eq_bind, Option.bind_some, hopen]
  rfl

theorem exists_run_opens {s : Network Nat} (hstart : start n = some s) (k : Nat) :
    ∃ t, (running s).runFrom s (opens k) = some t ∧ t.manager.accepting = none ∧
      ∀ j, (t.thread j).removed = [] ∧ ∀ i ∈ (t.thread j).added, i < k := by
  induction k with
  | zero =>
    refine ⟨s, rfl, ?_⟩
    rw [(start_eq hstart).2]
    exact ⟨rfl, fun _ => ⟨rfl, fun i hi => absurd hi List.not_mem_nil⟩⟩
  | succ k ih =>
    obtain ⟨t, hrun, hidle, ht⟩ := ih
    obtain ⟨m, index, hm, hindex, hthread⟩ := exists_armed (inv_run (start_even hstart).1 hrun) hidle
    rw [← hthread] at ht
    have hnew : k ∉ (m.thread index).added := fun h => Nat.lt_irrefl k ((ht index).2 k h)
    obtain ⟨u, hu, hnone, hadded⟩ := exists_opened hindex hnew
    refine ⟨u, ?_, hnone, ?_⟩
    · rw [opens_succ]
      exact System.runFrom_append.mpr ⟨t, hrun, System.runFrom_cons.mpr
        ⟨m, hm, System.runFrom_cons.mpr ⟨u, hu, rfl⟩⟩⟩
    · rw [hadded]
      refine (Function.forall_update_iff m.thread fun _ u =>
        u.removed = [] ∧ ∀ i ∈ u.added, i < k + 1).mpr ⟨⟨(ht index).1, ?_⟩, fun j _ => ?_⟩
      · refine List.forall_mem_append.mpr ⟨fun i hi => Nat.lt_succ_of_lt ((ht index).2 i hi), ?_⟩
        exact List.forall_mem_singleton.mpr (Nat.lt_succ_self k)
      · exact ⟨(ht j).1, fun i hi => Nat.lt_succ_of_lt ((ht j).2 i hi)⟩

theorem counter_overflows : ∃ s t : Network Nat, start 1 = some s ∧
    (running s).runFrom s (opens (2 ^ 31)) = some t ∧ NoneRemoved 1 t ∧
    ∑ j ∈ range 1, connections t.thread j ≠ (opens (2 ^ 31)).countP Event.isOpened := by
  obtain ⟨t, hrun, -, ht⟩ := exists_run_opens (n := 1) rfl (2 ^ 31)
  refine ⟨_, t, rfl, hrun, fun j _ => (ht j).1, fun hsum => ?_⟩
  have hbalanced : Balanced (range 1) (connections t.thread) := by
    intro i hi j hj
    rw [mem_range, Nat.lt_one_iff] at hi hj
    rw [hi, hj]
    exact Int.le_add_one le_rfl
  have hle := (balanced_run_iff (n := 1) rfl hrun fun j _ => (ht j).1).mp ⟨hbalanced, hsum⟩
  rw [countP_opens] at hle
  exact absurd hle (by decide)

end Network
end Warhead.SocketMgr
