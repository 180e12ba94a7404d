import WarheadFix.Common.ProducerConsumerQueue
import WarheadFix.Lib.Waiters

/-! The threads that wait in `WaitAndPop`, with the notifications of the condition variable.
`Push` notifies one of them, `Cancel` all, and one may wake up unasked. No notification is
lost: a thread that is left waiting has nothing to take. -/

namespace Warhead.ProducerConsumerQueue
open Lib

/-- The queue shared by its threads, of which the waiting ones may have been notified. -/
structure Signalled (τ α : Type) where
  queue : ProducerConsumerQueue α
  threads : Waiters τ
  pushed : List α
  fates : List (Fate τ α)

namespace Signalled
variable {τ α : Type}

inductive Event (τ α : Type) where
  -- `woken` is the thread that `notify_one` chooses, if any is waiting for it
  | push (thread : τ) (value : α) (woken : Option τ)
  | pop (thread : τ)
  | waitAndPop (thread : τ)
  | wake (thread : τ)
  | cancel (thread : τ)

def start : Signalled τ α := ⟨new, .none, [], []⟩

def shared (s : Signalled τ α) : Shared τ α := ⟨s.queue, s.threads.waiting, s.pushed, s.fates⟩

def take (s : Signalled τ α) (thread : τ) : Signalled τ α :=
  { s with queue := (s.shared.take thread).queue, fates := (s.shared.take thread).fates }

def waitOrTake (s : Signalled τ α) (thread : τ) (h : thread ∉ s.threads.waiting) : Signalled τ α :=
  if s.queue.waits then { s with threads := s.threads.wait thread h } else s.take thread

variable [DecidableEq τ]

/-- `notify_one` wakes up nobody only where there is nobody to wake. -/
def notifyOne (threads : Waiters τ) : Option τ → Option (Waiters τ)
  | none => if threads.blocked = [] then some threads else none
  | some t => if h : t ∈ threads.blocked then some (threads.notify t h) else none

def step (s : Signalled τ α) : Event τ α → Option (Signalled τ α)
  | .push thread value woken =>
    if thread ∈ s.threads.waiting then none
    else (notifyOne s.threads woken).map fun threads =>
      { s with queue := s.queue.push value, threads, pushed := s.pushed ++ [value] }
  | .pop thread => if thread ∈ s.threads.waiting then none else some (s.take thread)
  | .waitAndPop thread =>
    if h : thread ∈ s.threads.waiting then none else some (s.waitOrTake thread h)
  | .wake thread =>
    if thread ∈ s.threads.waiting then
      some ({ s with threads := s.threads.leave thread }.waitOrTake thread
        (s.threads.not_mem_leave thread))
    else none
  | .cancel thread =>
    if thread ∈ s.threads.waiting then none
    else some { s with
      queue := s.queue.cancel.2
      threads := s.threads.notifyAll
      fates := s.fates ++ s.queue.cancel.1.map Fate.disposed }

end Signalled

def signalled (τ α : Type) [DecidableEq τ] : System (Signalled τ α) (Signalled.Event τ α) :=
  ⟨Signalled.start, Signalled.step⟩

namespace Signalled
variable {τ α : Type} {s t : Signalled τ α} {thread : τ}

/-- A thread that waits without a notification waits for a queue that is open, and for every
element in it another thread has been notified. -/
structure Covered [DecidableEq τ] (s : Signalled τ α) : Prop where
  opened : s.threads.blocked ≠ [] → s.queue.shutdown = false
  elements : s.threads.Covers s.queue.queue.length

section Take

theorem take_cases (s : Signalled τ α) (thread : τ) :
    (s.take thread).queue = s.queue ∧ (s.queue.queue = [] ∨ s.queue.shutdown = true) ∨
      s.queue.shutdown = false ∧ (s.take thread).queue.shutdown = false ∧
        ∃ value, s.queue.queue = value :: (s.take thread).queue.queue := by
  unfold take Shared.take pop
  rw [show s.shared.queue = s.queue from rfl]
  cases hq : s.queue.queue with
  | nil => exact .inl ⟨rfl, .inl rfl⟩
  | cons value rest =>
    cases hshut : s.queue.shutdown with
    | true => exact .inl ⟨rfl, .inr rfl⟩
    | false => exact .inr ⟨rfl, rfl, value, rfl⟩

theorem shared_take (s : Signalled τ α) (thread : τ) :
    (s.take thread).shared = s.shared.take thread := by
  unfold take shared Shared.take
  dsimp only
  rcases s.queue.pop with ⟨_ | value, queue⟩ <;> rfl

theorem shared_waitOrTake (s : Signalled τ α) (thread : τ) (h : thread ∉ s.threads.waiting) :
    (s.waitOrTake thread h).shared = s.shared.waitOrTake thread := by
  unfold waitOrTake Shared.waitOrTake
  rw [show s.shared.queue = s.queue from rfl]
  split_ifs
  · rfl
  · exact shared_take s thread

end Take

variable [DecidableEq τ]

theorem Covered.take (h : s.Covered) (thread : τ) : (s.take thread).Covered := by
  rcases take_cases s thread with ⟨hsame, -⟩ | ⟨hopen, hopen', value, hfront⟩
  · refine ⟨?_, ?_⟩
    · rw [hsame]
      exact h.opened
    · rw [hsame]
      exact h.elements
  · refine ⟨fun _ => hopen', h.elements.mono ?_⟩
    rw [hfront]
    exact Nat.le_succ _

theorem covered_of_waits (hw : s.queue.waits = true) : s.Covered := by
  obtain ⟨hempty, hopen⟩ := Bool.and_eq_true_iff.mp hw
  refine ⟨fun _ => by simpa using hopen, ?_⟩
  rw [List.isEmpty_iff.mp hempty]
  exact s.threads.covers_zero

theorem Covered.leave (h : s.Covered) (thread : τ) :
    ({ s with threads := s.threads.leave thread }.waitOrTake thread
      (s.threads.not_mem_leave thread)).Covered := by
  unfold waitOrTake
  dsimp only
  split_ifs with hw
  · exact covered_of_waits hw
  · have hblocked : (s.threads.leave thread).blocked ≠ [] → s.threads.blocked ≠ [] := by
      intro hne
      obtain ⟨t, ht⟩ := List.exists_mem_of_ne_nil _ hne
      exact List.ne_nil_of_mem (Waiters.mem_blocked_of_leave ht)
    rcases take_cases { s with threads := s.threads.leave thread } thread with
      ⟨hsame, hnone⟩ | ⟨-, hopen', value, hfront⟩
    · -- a thread that leaves with nothing found the queue shut down
      have hshut : s.queue.shutdown = true := by
        rcases hnone with hempty | hshut
        · change s.queue.queue = [] at hempty
          unfold waits at hw
          rw [hempty] at hw
          simpa using hw
        · exact hshut
      have hnobody : (s.threads.leave thread).blocked = [] := by
        by_contra hne
        exact absurd (hshut.symm.trans (h.opened (hblocked hne))) nofun
      exact ⟨fun hne => absurd hnobody hne, Waiters.covers_of_blocked hnobody _⟩
    · refine ⟨fun _ => hopen', Waiters.Covers.leave ?_ thread⟩
      have helements := h.elements
      change s.queue.queue = _ at hfront
      rwa [hfront] at helements

theorem Covered.push (h : s.Covered) {threads : Waiters τ} {woken : Option τ} (value : α)
    (hw : notifyOne s.threads woken = some threads) :
    ({ s with queue := s.queue.push value, threads, pushed := s.pushed ++ [value] } :
      Signalled τ α).Covered := by
  have hlength : (s.queue.push value).queue.length = s.queue.queue.length + 1 :=
    List.length_append
  cases woken with
  | none =>
    simp only [notifyOne] at hw
    split_ifs at hw with hnobody
    obtain rfl := Option.some.inj hw
    exact ⟨fun hne => absurd hnobody hne, Waiters.covers_of_blocked hnobody _⟩
  | some t =>
    simp only [notifyOne] at hw
    split_ifs at hw with ht
    obtain rfl := Option.some.inj hw
    refine ⟨fun _ => h.opened (List.ne_nil_of_mem ht), ?_⟩
    change Waiters.Covers _ (s.queue.push value).queue.length
    rw [hlength]
    exact h.elements.notify ht

theorem Covered.step {e : Event τ α} (h : s.Covered) (hs : s.step e = some t) : t.Covered := by
  cases e with
  | push thread value woken =>
    simp only [Signalled.step] at hs
    split_ifs at hs
    obtain ⟨threads, hw, rfl⟩ := Option.map_eq_some_iff.mp hs
    exact h.push value hw
  | pop thread =>
    simp only [Signalled.step] at hs
    split_ifs at hs
    exact Option.some.inj hs ▸ h.take thread
  | waitAndPop thread =>
    simp only [Signalled.step] at hs
    split_ifs at hs with hnot
    obtain rfl := Option.some.inj hs
    unfold waitOrTake
    split_ifs with hw
    · exact covered_of_waits hw
    · exact h.take thread
  | wake thread =>
    simp only [Signalled.step] at hs
    split_ifs at hs
    exact Option.some.inj hs ▸ h.leave thread
  | cancel thread =>
    simp only [Signalled.step] at hs
    split_ifs at hs
    obtain rfl := Option.some.inj hs
    have hnobody := s.threads.blocked_notifyAll
    exact ⟨fun hne => absurd hnobody hne, Waiters.covers_of_blocked hnobody _⟩

theorem covered_of_reachable (h : (signalled τ α).Reachable s) : s.Covered := by
  refine h.invariant ⟨fun hne => absurd rfl hne, Waiters.covers_zero _⟩ ?_
  exact fun _ _ _ => Covered.step

/-! ## The notifications aside -/

theorem waiting_of_notifyOne {threads threads' : Waiters τ} {woken : Option τ}
    (h : notifyOne threads woken = some threads') : threads'.waiting = threads.waiting := by
  cases woken with
  | none =>
    simp only [notifyOne] at h
    split_ifs at h
    exact Option.some.inj h ▸ rfl
  | some t =>
    simp only [notifyOne] at h
    split_ifs at h
    exact Option.some.inj h ▸ rfl

theorem shared_step {e : Event τ α} (hs : s.step e = some t) :
    ∃ d, s.shared.step d = some t.shared := by
  cases e with
  | push thread value woken =>
    simp only [Signalled.step] at hs
    split_ifs at hs with hnot
    obtain ⟨threads, hw, rfl⟩ := Option.map_eq_some_iff.mp hs
    refine ⟨.push thread value, (if_neg hnot).trans (congrArg some ?_)⟩
    unfold shared
    rw [waiting_of_notifyOne hw]
  | pop thread =>
    simp only [Signalled.step] at hs
    split_ifs at hs with hnot
    obtain rfl := Option.some.inj hs
    exact ⟨.pop thread, (if_neg hnot).trans (congrArg some (shared_take s thread).symm)⟩
  | waitAndPop thread =>
    simp only [Signalled.step] at hs
    split_ifs at hs with hnot
    obtain rfl := Option.some.inj hs
    exact ⟨.waitAndPop thread, (if_neg hnot).trans (congrArg some (shared_waitOrTake s thread hnot).symm)⟩
  | wake thread =>
    simp only [Signalled.step] at hs
    split_ifs at hs with hin
    obtain rfl := Option.some.inj hs
    have hshared := shared_waitOrTake { s with threads := s.threads.leave thread } thread
      (s.threads.not_mem_leave thread)
    exact ⟨.wake thread, (if_pos hin).trans (congrArg some hshared.symm)⟩
  | cancel thread =>
    simp only [Signalled.step] at hs
    split_ifs at hs with hnot
    obtain rfl := Option.some.inj hs
    exact ⟨.cancel thread, if_neg hnot⟩

def simulation : System.Simulation (signalled τ α) (runs τ α) where
  view := shared
  inv _ := True
  inv_start := trivial
  inv_step _ _ _ _ _ := trivial
  view_start := rfl
  matched _ _ _ _ hs := .inr (shared_step hs)

theorem conserved_of_reachable (h : (signalled τ α).Reachable s) :
    s.fates.map Fate.value ++ s.queue.queue = s.pushed :=
  Channel.conserved_of_reachable
    (ProducerConsumerQueue.simulation.reachable (simulation.reachable h))

/-! ## Waking up -/

theorem wake_eq (hin : thread ∈ s.threads.waiting) : ∃ t, s.step (.wake thread) = some t ∧
    t.threads.notified = s.threads.notified.erase thread ∧
    (∀ other ∈ s.threads.waiting, other ≠ thread → other ∈ t.threads.waiting) ∧
    t.pushed = s.pushed := by
  have hleave {other : τ} (hother : other ∈ s.threads.waiting) (hne : other ≠ thread) :
      other ∈ (s.threads.leave thread).waiting :=
    s.threads.nodup.mem_erase_iff.mpr ⟨hne, hother⟩
  refine ⟨_, if_pos hin, ?_⟩
  unfold waitOrTake
  split_ifs
  · exact ⟨rfl, fun other hother hne => List.mem_cons_of_mem _ (hleave hother hne), rfl⟩
  · exact ⟨rfl, fun other hother hne => hleave hother hne, rfl⟩

theorem wakes_run {order : List τ} (h : order.Perm s.threads.notified) :
    ∃ t, (signalled τ α).runFrom s (order.map Event.wake) = some t ∧ t.threads.notified = [] ∧
      t.pushed = s.pushed := by
  induction order generalizing s with
  | nil => exact ⟨s, rfl, h.nil_eq.symm, rfl⟩
  | cons thread order ih =>
    obtain ⟨hmem, hrest⟩ := List.cons_perm_iff_perm_erase.mp h
    obtain ⟨m, hm, hnotified, -, hpushed⟩ := wake_eq (s.threads.notified_subset hmem)
    obtain ⟨t, hrun, hnone, hsame⟩ := ih (hnotified ▸ hrest)
    exact ⟨t, System.runFrom_cons.mpr ⟨m, hm, hrun⟩, hnone, hsame.trans hpushed⟩

/-- A thread is left waiting without a notification only if the queue is open and others have
been notified for all that is in it; so when the notified threads have woken up, in whatever
order, the ones that still wait have nothing to take and nothing has been lost. -/
theorem no_wakeup_lost (h : (signalled τ α).Reachable s) (order : List τ)
    (horder : order.Perm s.threads.notified) :
    (s.threads.blocked ≠ [] → s.queue.shutdown = false ∧
      s.queue.queue.length ≤ s.threads.notified.length) ∧
    ∃ t, (signalled τ α).runFrom s (order.map Event.wake) = some t ∧
      (t.threads.waiting ≠ [] → t.queue.queue = [] ∧ t.queue.shutdown = false) ∧
      t.fates.map Fate.value ++ t.queue.queue = s.pushed := by
  have hs := covered_of_reachable h
  obtain ⟨t, hrun, hnone, hpushed⟩ := wakes_run (α := α) horder
  have ht : (signalled τ α).Reachable t := by
    obtain ⟨es, hes⟩ := h
    exact ⟨es ++ order.map Event.wake, System.runFrom_append.mpr ⟨s, hes, hrun⟩⟩
  have hcovered := covered_of_reachable ht
  refine ⟨fun hne => ⟨hs.opened hne, hs.elements hne⟩, t, hrun, fun hne => ?_,
    (conserved_of_reachable ht).trans hpushed⟩
  have hblocked : t.threads.blocked ≠ [] := by
    obtain ⟨thread, hthread⟩ := List.exists_mem_of_ne_nil _ hne
    refine List.ne_nil_of_mem (Waiters.mem_blocked.mpr ⟨hthread, ?_⟩)
    rw [hnone]
    exact List.not_mem_nil
  have hlength := hcovered.elements hblocked
  rw [hnone] at hlength
  exact ⟨List.length_eq_zero_iff.mp (Nat.le_zero.mp hlength), hcovered.opened hblocked⟩

def threeWaiting : List (Event Nat Nat) :=
  [.waitAndPop 0, .waitAndPop 1, .waitAndPop 2, .push 3 7 (some 1), .push 3 8 (some 0), .pop 4]

theorem no_wakeup_lost_threeWaiting :
    ∃ s, (signalled Nat Nat).runFrom start threeWaiting = some s ∧ s.threads.blocked = [2] ∧
      s.queue.queue.length ≤ s.threads.notified.length ∧
      ∃ t, (signalled Nat Nat).runFrom s ([0, 1].map Event.wake) = some t ∧
        t.queue.queue = [] ∧ t.fates.map Fate.value ++ t.queue.queue = [7, 8] := by
  refine ⟨_, rfl, rfl, ?_⟩
  obtain ⟨hcovered, t, hrun, hempty, hfates⟩ :=
    no_wakeup_lost (s := _) ⟨threeWaiting, rfl⟩ [0, 1] (by decide)
  have hwaiting : t.threads.waiting ≠ [] := by
    rw [← Option.some.inj hrun]
    decide
  exact ⟨(hcovered (by decide)).2, t, hrun, (hempty hwaiting).1, hfates⟩

end Signalled
end Warhead.ProducerConsumerQueue
