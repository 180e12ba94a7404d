import Mathlib

/-! The threads that wait on a condition. A notification chooses one of those that have not
been notified, and a thread may also leave without one. The rule below is for a condition with
a notification for each piece of work: nobody is left waiting for work that is there. -/

namespace Warhead.Lib
universe u

/-- The waiting threads, and those among them that have been notified and not left yet. -/
structure Waiters (τ : Type u) where
  waiting : List τ
  notified : List τ
  nodup : waiting.Nodup
  notified_nodup : notified.Nodup
  notified_subset : notified ⊆ waiting

namespace Waiters
variable {τ : Type u}

def none : Waiters τ := ⟨[], [], List.nodup_nil, List.nodup_nil, List.Subset.refl _⟩

def wait (w : Waiters τ) (t : τ) (h : t ∉ w.waiting) : Waiters τ where
  waiting := t :: w.waiting
  notified := w.notified
  nodup := List.nodup_cons.mpr ⟨h, w.nodup⟩
  notified_nodup := w.notified_nodup
  notified_subset := List.subset_cons_of_subset t w.notified_subset

def notifyAll (w : Waiters τ) : Waiters τ where
  waiting := w.waiting
  notified := w.waiting
  nodup := w.nodup
  notified_nodup := w.nodup
  notified_subset := List.Subset.refl _

variable [DecidableEq τ]

def blocked (w : Waiters τ) : List τ := w.waiting.filter (· ∉ w.notified)

theorem mem_blocked {w : Waiters τ} {t : τ} :
    t ∈ w.blocked ↔ t ∈ w.waiting ∧ t ∉ w.notified := by
  simp [blocked]

def notify (w : Waiters τ) (t : τ) (h : t ∈ w.blocked) : Waiters τ where
  waiting := w.waiting
  notified := w.notified ++ [t]
  nodup := w.nodup
  notified_nodup := by
    rw [List.nodup_append_comm]
    exact List.nodup_cons.mpr ⟨(mem_blocked.mp h).2, w.notified_nodup⟩
  notified_subset :=
    List.append_subset.mpr ⟨w.notified_subset, by simpa using (mem_blocked.mp h).1⟩

def leave (w : Waiters τ) (t : τ) : Waiters τ where
  waiting := w.waiting.erase t
  notified := w.notified.erase t
  nodup := w.nodup.erase t
  notified_nodup := w.notified_nodup.erase t
  notified_subset s hs := by
    obtain ⟨hne, hs⟩ := w.notified_nodup.mem_erase_iff.mp hs
    exact w.nodup.mem_erase_iff.mpr ⟨hne, w.notified_subset hs⟩

theorem not_mem_leave (w : Waiters τ) (t : τ) : t ∉ (w.leave t).waiting := w.nodup.not_mem_erase

/-- If anybody waits without having been notified, there are notifications for all the work. -/
def Covers (w : Waiters τ) (work : Nat) : Prop := w.blocked ≠ [] → work ≤ w.notified.length

section Covers
variable {w : Waiters τ} {work : Nat} {t : τ}

theorem covers_zero (w : Waiters τ) : w.Covers 0 := fun _ => Nat.zero_le _

theorem covers_of_blocked (h : w.blocked = []) (work : Nat) : w.Covers work :=
  fun hne => absurd h hne

theorem blocked_notifyAll (w : Waiters τ) : w.notifyAll.blocked = [] := by
  apply List.eq_nil_iff_forall_not_mem.mpr
  intro t ht
  exact (mem_blocked.mp ht).2 (mem_blocked.mp ht).1

theorem Covers.notify (h : w.Covers work) (ht : t ∈ w.blocked) :
    (w.notify t ht).Covers (work + 1) := by
  intro _
  have hwork := h (List.ne_nil_of_mem ht)
  change work + 1 ≤ (w.notified ++ [t]).length
  rw [List.length_append]
  exact Nat.succ_le_succ hwork

theorem Covers.mono {less : Nat} (h : w.Covers work) (hle : less ≤ work) : w.Covers less :=
  fun hne => hle.trans (h hne)

theorem mem_blocked_of_leave {s : τ} (h : s ∈ (w.leave t).blocked) : s ∈ w.blocked := by
  obtain ⟨hs, hnot⟩ := mem_blocked.mp h
  obtain ⟨hne, hs⟩ := w.nodup.mem_erase_iff.mp hs
  refine mem_blocked.mpr ⟨hs, fun hin => hnot ?_⟩
  exact w.notified_nodup.mem_erase_iff.mpr ⟨hne, hin⟩

theorem Covers.leave (h : w.Covers (work + 1)) (t : τ) : (w.leave t).Covers work := by
  intro hne
  obtain ⟨s, hs⟩ := List.exists_mem_of_ne_nil _ hne
  have hwork := h (List.ne_nil_of_mem (mem_blocked_of_leave hs))
  exact (Nat.le_sub_one_of_lt hwork).trans List.le_length_erase

end Covers
end Waiters
end Warhead.Lib
