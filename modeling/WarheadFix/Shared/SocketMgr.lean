import WarheadFix.Lib.System

/-! The manager of the network threads. Their number is a member of the manager, but they are
allocated by the class above it, and an accepted socket comes back with the index it was taken
from much later. Every index used on `_threads` is recorded. -/

namespace Warhead
open Lib

/-- The members of the manager and of its acceptor, the number of threads that `CreateThreads`
has allocated, and the indices used on them. -/
structure SocketMgr where
  threads : Bool
  threadCount : Int
  closed : Bool
  -- the index that the accept under way has captured
  accepting : Option Nat
  allocated : Nat
  used : List Nat

namespace SocketMgr

def new : SocketMgr := ⟨false, 0, false, none, 0, []⟩

/-- What `GetConnectionCount` gives in each round of a search; the threads change it meanwhile. -/
abbrev ConnectionCounts := Nat → Nat → Int

def use (m : SocketMgr) (indices : List Nat) : SocketMgr := { m with used := m.used ++ indices }

def eachThread (m : SocketMgr) : List Nat := List.range m.threadCount.toNat

def selectRound (counts : ConnectionCounts) (s : Nat × List Nat) (i : Nat) : Nat × List Nat :=
  (if counts i i < counts i s.1 then i else s.1, s.2 ++ [i, s.1])

def selectThreadWithMinConnections (m : SocketMgr) (counts : ConnectionCounts) : Nat × SocketMgr :=
  let (min, used) := (List.range' 1 (m.threadCount.toNat - 1)).foldl (selectRound counts) (0, [])
  (min, m.use used)

def getSocketForAccept (m : SocketMgr) (counts : ConnectionCounts) : Nat × SocketMgr :=
  let (threadIndex, m) := m.selectThreadWithMinConnections counts
  (threadIndex, m.use [threadIndex])

def asyncAcceptWithCallback (m : SocketMgr) (counts : ConnectionCounts) : SocketMgr :=
  let (threadIndex, m) := m.getSocketForAccept counts
  { m with accepting := some threadIndex }

inductive Accepted where
  | failed
  | refused
  | opened

def onSocketOpen (m : SocketMgr) (threadIndex : Nat) : Accepted → SocketMgr
  | .opened => m.use [threadIndex]
  | _ => m

def startNetwork (createThreads : Nat) (listening : Bool) (threadCount : Int) (m : SocketMgr) :
    Option (SocketMgr × Bool) :=
  if threadCount ≤ 0 then none
  else if listening then
    let m := { m with
      threads := true, threadCount := threadCount, closed := false, allocated := createThreads }
    some (m.use m.eachThread, true)
  else some (m, false)

def wait (m : SocketMgr) : SocketMgr := m.use m.eachThread

def stopNetwork (m : SocketMgr) : SocketMgr :=
  let m := ({ m with closed := true }.use m.eachThread).wait
  { m with threads := false, threadCount := 0 }

inductive Event where
  | accepted (result : Accepted) (counts : ConnectionCounts)
  | stopNetwork

/-- An accept that ends is followed by the next one unless the acceptor has been closed. -/
def step (m : SocketMgr) : Event → Option SocketMgr
  | .accepted result counts =>
    match m.accepting with
    | none => none
    | some threadIndex =>
      let m := m.onSocketOpen threadIndex result
      some (if m.closed then { m with accepting := none } else m.asyncAcceptWithCallback counts)
  | .stopNetwork => if m.threads then some m.stopNetwork else none

def running (m : SocketMgr) : System SocketMgr Event := ⟨m, step⟩

/-! ## Indices in range -/

def InRange (m : SocketMgr) : Prop := ∀ i ∈ m.used, i < m.allocated

structure Fits (m : SocketMgr) : Prop where
  some_thread : 0 < m.allocated
  count : m.threadCount ≤ m.allocated
  accepting : ∀ i ∈ m.accepting, i < m.allocated
  inRange : m.InRange

def Extends (m t : SocketMgr) : Prop := t.allocated = m.allocated ∧ m.used ⊆ t.used

section Steps
variable {m t : SocketMgr} {counts : ConnectionCounts} {indices : List Nat}

theorem InRange.of_extends (h : t.InRange) (ht : m.Extends t) : m.InRange := by
  intro i hi
  rw [← ht.1]
  exact h i (ht.2 hi)

theorem Fits.use (h : m.Fits) (hindices : ∀ i ∈ indices, i < m.allocated) :
    (m.use indices).Fits where
  some_thread := h.some_thread
  count := h.count
  accepting := h.accepting
  inRange := List.forall_mem_append.mpr ⟨h.inRange, hindices⟩

theorem Fits.eachThread (h : m.Fits) : ∀ i ∈ m.eachThread, i < m.allocated := by
  intro i hi
  have hlt := List.mem_range.mp hi
  have hcount := h.count
  omega

theorem selectRounds_lt (counts : ConnectionCounts) (s : Nat × List Nat) {n : Nat} {is : List Nat}
    (his : ∀ i ∈ is, i < n) (hmin : s.1 < n) (hused : ∀ i ∈ s.2, i < n) :
    (is.foldl (selectRound counts) s).1 < n ∧ ∀ i ∈ (is.foldl (selectRound counts) s).2, i < n := by
  -- the search stays among the threads it counts and the first
  induction is generalizing s with
  | nil => exact ⟨hmin, hused⟩
  | cons i is ih =>
    obtain ⟨hi, his⟩ := List.forall_mem_cons.mp his
    apply ih _ his
    · unfold selectRound
      dsimp only
      split_ifs
      · exact hi
      · exact hmin
    · refine List.forall_mem_append.mpr ⟨hused, ?_⟩
      exact List.forall_mem_cons.mpr ⟨hi, List.forall_mem_singleton.mpr hmin⟩

theorem Fits.asyncAcceptWithCallback (h : m.Fits) : (m.asyncAcceptWithCallback counts).Fits := by
  have hrounds : ∀ i ∈ List.range' 1 (m.threadCount.toNat - 1), i < m.allocated := by
    intro i hi
    have hlt := List.mem_range'_1.mp hi
    have hcount := h.count
    omega
  obtain ⟨hmin, hused⟩ := selectRounds_lt counts (0, []) hrounds h.some_thread
    fun _ hi => absurd hi List.not_mem_nil
  have hsocket := (h.use hused).use (List.forall_mem_singleton.mpr hmin)
  exact ⟨hsocket.some_thread, hsocket.count, fun i hi => Option.some.inj hi ▸ hmin,
    hsocket.inRange⟩

theorem Fits.onSocketOpen (h : m.Fits) {threadIndex : Nat} (hindex : threadIndex < m.allocated)
    (result : Accepted) : (m.onSocketOpen threadIndex result).Fits := by
  cases result with
  | failed => exact h
  | refused => exact h
  | opened => exact h.use (List.forall_mem_singleton.mpr hindex)

theorem Fits.stopNetwork (h : m.Fits) : m.stopNetwork.Fits := by
  have hclosed : ({ m with closed := true } : SocketMgr).Fits :=
    ⟨h.some_thread, h.count, h.accepting, h.inRange⟩
  have hstopped := (hclosed.use hclosed.eachThread).use (hclosed.use hclosed.eachThread).eachThread
  exact ⟨hstopped.some_thread, Int.natCast_nonneg _, hstopped.accepting, hstopped.inRange⟩

theorem step_accepted {result : Accepted} (h : m.step (.accepted result counts) = some t) :
    ∃ threadIndex, m.accepting = some threadIndex ∧
      t = if (m.onSocketOpen threadIndex result).closed
        then { m.onSocketOpen threadIndex result with accepting := none }
        else (m.onSocketOpen threadIndex result).asyncAcceptWithCallback counts := by
  cases haccepting : m.accepting with
  | none => simp [SocketMgr.step, haccepting] at h
  | some threadIndex =>
    simp only [SocketMgr.step, haccepting, Option.some.injEq] at h
    exact ⟨threadIndex, rfl, h.symm⟩

theorem step_stopNetwork (h : m.step .stopNetwork = some t) : t = m.stopNetwork := by
  simp only [SocketMgr.step, Option.ite_none_right_eq_some, Option.some.injEq] at h
  exact h.2.symm

theorem Fits.step (h : m.Fits) {e : Event} (he : m.step e = some t) : t.Fits := by
  cases e with
  | accepted result counts =>
    obtain ⟨threadIndex, haccepting, rfl⟩ := step_accepted he
    have hopen := h.onSocketOpen (h.accepting threadIndex haccepting) result
    split_ifs
    · exact ⟨hopen.some_thread, hopen.count, fun _ hi => absurd hi (Option.not_mem_none _),
        hopen.inRange⟩
    · exact hopen.asyncAcceptWithCallback
  | stopNetwork =>
    rw [step_stopNetwork he]
    exact h.stopNetwork

theorem Extends.trans {u : SocketMgr} (h : m.Extends t) (ht : t.Extends u) : m.Extends u :=
  ⟨ht.1.trans h.1, List.Subset.trans h.2 ht.2⟩

theorem extends_use (m : SocketMgr) (indices : List Nat) : m.Extends (m.use indices) :=
  ⟨rfl, List.subset_append_left _ _⟩

theorem extends_asyncAcceptWithCallback (m : SocketMgr) (counts : ConnectionCounts) :
    m.Extends (m.asyncAcceptWithCallback counts) :=
  ⟨rfl, List.Subset.trans (List.subset_append_left _ _) (List.subset_append_left _ _)⟩

theorem extends_onSocketOpen (m : SocketMgr) (threadIndex : Nat) (result : Accepted) :
    m.Extends (m.onSocketOpen threadIndex result) := by
  cases result with
  | opened => exact extends_use m _
  | failed => exact ⟨rfl, List.Subset.refl _⟩
  | refused => exact ⟨rfl, List.Subset.refl _⟩

theorem extends_step {e : Event} (he : m.step e = some t) : m.Extends t := by
  cases e with
  | accepted result counts =>
    obtain ⟨threadIndex, -, rfl⟩ := step_accepted he
    have hopen := extends_onSocketOpen m threadIndex result
    split_ifs
    · exact hopen
    · exact hopen.trans (extends_asyncAcceptWithCallback _ counts)
  | stopNetwork =>
    rw [step_stopNetwork he]
    exact ⟨rfl, List.Subset.trans (List.subset_append_left _ _) (List.subset_append_left _ _)⟩

end Steps

section Runs
variable {createThreads : Nat} {threadCount : Int} {listening : Bool} {m t : SocketMgr}
  {es : List Event}

theorem startNetwork_eq (h : startNetwork createThreads listening threadCount new = some (m, true)) :
    0 < threadCount ∧
      m = ⟨true, threadCount, false, none, createThreads, List.range threadCount.toNat⟩ := by
  unfold startNetwork at h
  split_ifs at h with hcount hlistening
  · cases h
    exact ⟨not_le.mp hcount, rfl⟩
  · cases h

theorem inRange_iff_le (hsome : 0 < createThreads)
    (hstart : startNetwork createThreads listening threadCount new = some (m, true))
    {counts : ConnectionCounts}
    (hrun : (running (m.asyncAcceptWithCallback counts)).runFrom
      (m.asyncAcceptWithCallback counts) es = some t) :
    t.InRange ↔ threadCount ≤ createThreads := by
  obtain ⟨hpos, hm⟩ := startNetwork_eq hstart
  constructor
  · intro hrange
    have hextends : m.Extends t := (running (m.asyncAcceptWithCallback counts)).runFrom_invariant
      (fun _ _ _ hs he => hs.trans (extends_step he)) (extends_asyncAcceptWithCallback m counts) hrun
    have hlast := hrange.of_extends hextends
    -- the loop that starts the threads has used the last index
    rw [hm] at hlast
    have hlt : threadCount.toNat - 1 < createThreads :=
      hlast (threadCount.toNat - 1) (List.mem_range.mpr (by omega))
    omega
  · intro hle
    have hfits : m.Fits := by
      rw [hm]
      refine ⟨hsome, hle, fun _ hi => absurd hi (Option.not_mem_none _), ?_⟩
      intro i hi
      have hlt := List.mem_range.mp hi
      change i < createThreads
      omega
    exact ((running (m.asyncAcceptWithCallback counts)).runFrom_invariant
      (fun _ _ _ hs he => hs.step he) hfits.asyncAcceptWithCallback hrun).inRange

end Runs
end SocketMgr

namespace AuthSocketMgr
open SocketMgr

def createThreads : Nat := 1

def startNetwork (listening : Bool) (threadCount : Int) (counts : ConnectionCounts)
    (m : SocketMgr) : Option (SocketMgr × Bool) :=
  match SocketMgr.startNetwork createThreads listening threadCount m with
  | some (m, true) => some (m.asyncAcceptWithCallback counts, true)
  | r => r

/-- Whatever is accepted before and after the network is stopped, the indices are those of
allocated threads if and only if one thread was asked for. -/
theorem inRange_iff_one (listening : Bool) (threadCount : Int) (counts : ConnectionCounts)
    (es : List Event) (m t : SocketMgr)
    (hstart : startNetwork listening threadCount counts .new = some (m, true))
    (hrun : (running m).runFrom m es = some t) : t.InRange ↔ threadCount = 1 := by
  cases hbase : SocketMgr.startNetwork createThreads listening threadCount .new with
  | none => simp [startNetwork, hbase] at hstart
  | some r =>
    obtain ⟨m₀, started⟩ := r
    cases started with
    | false => simp [startNetwork, hbase] at hstart
    | true =>
      simp only [startNetwork, hbase, Option.some.injEq, Prod.mk.injEq, and_true] at hstart
      rw [← hstart] at hrun
      have hpos := (startNetwork_eq hbase).1
      rw [inRange_iff_le Nat.zero_lt_one hbase hrun]
      change threadCount ≤ 1 ↔ threadCount = 1
      omega

theorem inRange_iff_one_stopped :
    ∃ m t, startNetwork true 1 (fun _ _ => 0) .new = some (m, true) ∧
      (running m).runFrom m [.accepted .opened fun _ _ => 1, .stopNetwork] = some t ∧
      (t.InRange ↔ (1 : Int) = 1) :=
  ⟨_, _, rfl, rfl, inRange_iff_one true 1 (fun _ _ => 0)
    [.accepted .opened fun _ _ => 1, .stopNetwork] _ _ rfl rfl⟩

/-- Of two threads the second is started, and there is only one. -/
theorem two_threads_out_of_range :
    ∃ m, startNetwork true 2 (fun _ _ => 0) .new = some (m, true) ∧ m.allocated = 1 ∧
      1 ∈ m.used ∧ ¬m.InRange := by
  refine ⟨_, rfl, rfl, by decide, ?_⟩
  intro hrange
  exact absurd (hrange 1 (by decide)) (by decide)

end AuthSocketMgr
end Warhead
