import WarheadFix.Lib.Channel

/-! The producer-consumer queue, shared by any number of threads. Every critical section is
one step. The queue refines a first-in first-out channel, so each element meets its fate in
the order of the pushes; but `Push` does not look at the shutdown flag that `Pop` and
`WaitAndPop` look at, and what it pushes after a cancellation stays. -/

namespace Warhead
open Lib

structure ProducerConsumerQueue (α : Type) where
  queue : List α
  shutdown : Bool

namespace ProducerConsumerQueue
variable {α τ : Type}

def new : ProducerConsumerQueue α := ⟨[], false⟩

def push (q : ProducerConsumerQueue α) (value : α) : ProducerConsumerQueue α :=
  { q with queue := q.queue ++ [value] }

def pop (q : ProducerConsumerQueue α) : Option α × ProducerConsumerQueue α :=
  match q.queue with
  | [] => (none, q)
  | value :: rest => if q.shutdown then (none, q) else (some value, { q with queue := rest })

def waits (q : ProducerConsumerQueue α) : Bool := q.queue.isEmpty && !q.shutdown

def cancel (q : ProducerConsumerQueue α) : List α × ProducerConsumerQueue α :=
  (q.queue, ⟨[], true⟩)

inductive Fate (τ α : Type) where
  | delivered (consumer : τ) (value : α)
  | disposed (value : α)
  deriving DecidableEq

def Fate.value : Fate τ α → α
  | delivered _ value => value
  | disposed value => value

structure Shared (τ α : Type) where
  queue : ProducerConsumerQueue α
  waiting : List τ
  pushed : List α
  fates : List (Fate τ α)

inductive Event (τ α : Type) where
  | push (thread : τ) (value : α)
  | pop (thread : τ)
  | waitAndPop (thread : τ)
  | wake (thread : τ)
  | cancel (thread : τ)

namespace Shared

def start : Shared τ α := ⟨new, [], [], []⟩

def take (s : Shared τ α) (thread : τ) : Shared τ α :=
  match s.queue.pop with
  | (none, queue) => { s with queue }
  | (some value, queue) => { s with queue, fates := s.fates ++ [.delivered thread value] }

def waitOrTake (s : Shared τ α) (thread : τ) : Shared τ α :=
  if s.queue.waits then { s with waiting := thread :: s.waiting } else s.take thread

/-- A waiting thread runs only when it wakes up, notified or not, and has the lock again. -/
def step [DecidableEq τ] (s : Shared τ α) : Event τ α → Option (Shared τ α)
  | .push thread value =>
    if thread ∈ s.waiting then none
    else some { s with queue := s.queue.push value, pushed := s.pushed ++ [value] }
  | .pop thread => if thread ∈ s.waiting then none else some (s.take thread)
  | .waitAndPop thread => if thread ∈ s.waiting then none else some (s.waitOrTake thread)
  | .wake thread =>
    if thread ∈ s.waiting then
      some ({ s with waiting := s.waiting.erase thread }.waitOrTake thread)
    else none
  | .cancel thread =>
    if thread ∈ s.waiting then none
    else some { s with
      queue := s.queue.cancel.2
      fates := s.fates ++ s.queue.cancel.1.map Fate.disposed }

def channel (s : Shared τ α) : Channel α :=
  ⟨s.pushed, s.fates.map Fate.value, s.queue.queue⟩

end Shared

def runs (τ α : Type) [DecidableEq τ] : System (Shared τ α) (Event τ α) :=
  ⟨Shared.start, Shared.step⟩

section Refinement
variable {s t : Shared τ α} {thread : τ}

inductive Turns (s : Shared τ α) : Shared τ α → Prop where
  | idle (waiting : List τ) : Turns s { s with waiting }
  | pushes (value : α) : Turns s { s with
      queue := s.queue.push value
      pushed := s.pushed ++ [value] }
  | delivers {value : α} {rest : List α} (waiting : List τ) (thread : τ)
      (h : s.queue.queue = value :: rest) (hopen : s.queue.shutdown = false) :
      Turns s { s with
        queue := { s.queue with queue := rest }
        waiting
        fates := s.fates ++ [.delivered thread value] }
  | cancels : Turns s { s with
      queue := ⟨[], true⟩
      fates := s.fates ++ s.queue.queue.map Fate.disposed }

theorem pop_spec (q : ProducerConsumerQueue α) :
    q.pop = (none, q) ∨ ∃ value rest, q.queue = value :: rest ∧ q.shutdown = false ∧
      q.pop = (some value, { q with queue := rest }) := by
  unfold pop
  cases hq : q.queue with
  | nil => exact .inl rfl
  | cons value rest =>
    cases hs : q.shutdown with
    | true => exact .inl rfl
    | false => exact .inr ⟨value, rest, rfl, rfl, rfl⟩

theorem take_turns (s : Shared τ α) (waiting : List τ) (thread : τ) :
    Turns s ({ s with waiting }.take thread) := by
  unfold Shared.take
  rcases pop_spec s.queue with hpop | ⟨value, rest, hq, hopen, hpop⟩
  · simp only [hpop]
    exact .idle waiting
  · simp only [hpop]
    exact .delivers waiting thread hq hopen

theorem waitOrTake_cases (s : Shared τ α) (thread : τ) :
    s.waitOrTake thread = { s with waiting := thread :: s.waiting } ∨
      s.waitOrTake thread = s.take thread := by
  unfold Shared.waitOrTake
  split_ifs
  · exact .inl rfl
  · exact .inr rfl

variable [DecidableEq τ]

theorem step_cases {e : Event τ α} (hs : s.step e = some t) :
    (∃ thread value, e = .push thread value ∧
      t = { s with queue := s.queue.push value, pushed := s.pushed ++ [value] }) ∨
    (∃ thread, e = .cancel thread ∧ t = { s with
      queue := s.queue.cancel.2
      fates := s.fates ++ s.queue.cancel.1.map Fate.disposed }) ∨
    (∀ thread value, e ≠ .push thread value) ∧ ∃ waiting,
      t = { s with waiting } ∨ ∃ thread, t = { s with waiting }.take thread := by
  cases e with
  | push thread value =>
    simp only [Shared.step] at hs
    split_ifs at hs
    exact .inl ⟨thread, value, rfl, (Option.some.inj hs).symm⟩
  | pop thread =>
    simp only [Shared.step] at hs
    split_ifs at hs
    exact .inr (.inr ⟨nofun, s.waiting, .inr ⟨thread, (Option.some.inj hs).symm⟩⟩)
  | waitAndPop thread =>
    simp only [Shared.step] at hs
    split_ifs at hs
    obtain rfl := Option.some.inj hs
    rcases waitOrTake_cases s thread with h | h
    · exact .inr (.inr ⟨nofun, _, .inl h⟩)
    · exact .inr (.inr ⟨nofun, s.waiting, .inr ⟨thread, h⟩⟩)
  | wake thread =>
    simp only [Shared.step] at hs
    split_ifs at hs
    obtain rfl := Option.some.inj hs
    rcases waitOrTake_cases { s with waiting := s.waiting.erase thread } thread with h | h
    · exact .inr (.inr ⟨nofun, _, .inl h⟩)
    · exact .inr (.inr ⟨nofun, _, .inr ⟨thread, h⟩⟩)
  | cancel thread =>
    simp only [Shared.step] at hs
    split_ifs at hs
    exact .inr (.inl ⟨thread, rfl, (Option.some.inj hs).symm⟩)

theorem step_turns {e : Event τ α} (hs : s.step e = some t) : Turns s t := by
  obtain ⟨_, value, -, rfl⟩ | ⟨_, -, rfl⟩ | ⟨-, waiting, rfl | ⟨thread, rfl⟩⟩ := step_cases hs
  · exact .pushes value
  · exact .cancels
  · exact .idle waiting
  · exact take_turns s waiting thread

omit [DecidableEq τ] in
theorem Turns.channel (h : Turns s t) :
    t.channel = s.channel ∨ ∃ d, s.channel.step d = some t.channel := by
  cases h with
  | idle => exact .inl rfl
  | pushes value =>
    refine .inr ⟨.enqueue [value], ?_⟩
    rfl
  | @delivers value rest waiting thread hq =>
    refine .inr ⟨.transfer 1, ?_⟩
    simp [Channel.step, Shared.channel, hq, Fate.value]
  | cancels =>
    refine .inr ⟨.transfer s.queue.queue.length, ?_⟩
    simp [Channel.step, Shared.channel, Function.comp_def, Fate.value]

def simulation : System.Simulation (runs τ α) (Channel.system α) where
  view := Shared.channel
  inv _ := True
  inv_start := trivial
  inv_step _ _ _ _ _ := trivial
  view_start := rfl
  matched _ _ _ _ hs := (step_turns hs).channel

end Refinement

section Shutdown
variable {s t : Shared τ α} [DecidableEq τ]

/-- Each element pushed has met exactly one fate, in order, or is still queued; and after a
cancellation none is. -/
structure Settled (s : Shared τ α) : Prop where
  fates : s.fates.map Fate.value ++ s.queue.queue = s.pushed
  empty : s.queue.shutdown = true → s.queue.queue = []

/-- A push has the lock before any cancellation. -/
def Open (s : Shared τ α) : Event τ α → Prop
  | .push _ _ => s.queue.shutdown = false
  | _ => True

omit [DecidableEq τ] in
theorem take_empty (h : s.queue.shutdown = true → s.queue.queue = []) (thread : τ) :
    (s.take thread).queue.shutdown = true → (s.take thread).queue.queue = [] := by
  unfold Shared.take
  rcases pop_spec s.queue with hpop | ⟨value, rest, hq, hopen, hpop⟩
  · simpa only [hpop] using h
  · simp only [hpop]
    exact fun hshut => absurd (hopen.symm.trans hshut) Bool.false_ne_true

omit [DecidableEq τ] in
theorem open_of_ne_push {e : Event τ α} (h : ∀ thread value, e ≠ .push thread value) :
    Open s e := by
  cases e with
  | push thread value => exact absurd rfl (h thread value)
  | pop | waitAndPop | wake | cancel => trivial

theorem step_empty_iff {e : Event τ α} (h : s.queue.shutdown = true → s.queue.queue = [])
    (hs : s.step e = some t) :
    (t.queue.shutdown = true → t.queue.queue = []) ↔ Open s e := by
  obtain ⟨_, value, rfl, rfl⟩ | ⟨_, rfl, rfl⟩ | ⟨hpush, waiting, rfl | ⟨thread, rfl⟩⟩ :=
    step_cases hs
  · simp [push, Open]
  · exact iff_of_true (fun _ => rfl) trivial
  · exact iff_of_true h (open_of_ne_push hpush)
  · exact iff_of_true (take_empty (s := { s with waiting }) h thread) (open_of_ne_push hpush)

/-- Whatever the order of the critical sections, no element is lost between the fates and the
queue; and in every state of a run the queue of a cancelled object is empty exactly if no push
has come after a cancellation. -/
theorem shutdown_loses_nothing_iff (es : List (Event τ α)) :
    (runs τ α).Throughout Settled Shared.start es ↔ (runs τ α).Along Open Shared.start es := by
  refine System.throughout_iff_along (I := (runs τ α).Reachable)
    (fun _ _ _ hs ht => hs.step ht) ?_ (runs τ α).reachable_start ?_
  · intro s e t hreach hs ht
    have hch := Channel.conserved_of_reachable (simulation.reachable (hreach.step ht))
    have hempty := step_empty_iff hs.empty ht
    exact ⟨fun h => hempty.mp h.empty, fun h => ⟨hch, hempty.mpr h⟩⟩
  · exact ⟨rfl, fun h => absurd h Bool.false_ne_true⟩

/-- What is pushed after a cancellation is neither delivered nor disposed of. -/
theorem push_after_cancel :
    ¬ ∀ s, (runs Unit Nat).Reachable s → s.queue.shutdown = true → s.queue.queue = [] := by
  intro h
  have hreach : (runs Unit Nat).Reachable ⟨⟨[7], true⟩, [], [7], []⟩ :=
    ⟨[.cancel (), .push () 7], rfl⟩
  exact absurd (h _ hreach rfl) (by decide)

end Shutdown
end ProducerConsumerQueue
end Warhead
