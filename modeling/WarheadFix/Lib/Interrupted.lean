import Mathlib

/-! Programs that change a state and may stop in the middle. What was done before the stop is not
undone, so a rule about such a program has an assertion for each of its two ends. -/

namespace Warhead.Lib.Interrupted
universe u
variable {ε σ α β : Type u}

def action (f : σ → Except ε (α × σ)) : EStateM ε σ α := fun s =>
  match f s with
  | .ok (a, t) => .ok a t
  | .error e => .error e s

def effect (f : σ → Except ε σ) : EStateM ε σ PUnit :=
  action fun s => (f s).map fun t => (⟨⟩, t)

def update (f : σ → σ) : EStateM ε σ PUnit := effect fun s => .ok (f s)

def outcome (x : EStateM ε σ α) (s : σ) : Except ε (α × σ) :=
  match x s with
  | .ok a t => .ok (a, t)
  | .error e _ => .error e

def Does (x : EStateM ε σ PUnit) (f : σ → Except ε σ) : Prop :=
  ∀ s, outcome x s = (f s).map fun t => (⟨⟩, t)

/-- From `P` the program ends in `Q` or stops in `E`. -/
def Leaves (P : σ → Prop) (x : EStateM ε σ α) (Q : α → σ → Prop) (E : σ → Prop) : Prop :=
  ∀ s, P s → match x s with
    | .ok a t => Q a t
    | .error _ t => E t

section Outcome
variable {s : σ} {x : EStateM ε σ α}

theorem outcome_pure {a : α} : outcome (pure a : EStateM ε σ α) s = .ok (a, s) := rfl

theorem outcome_bind {f : α → EStateM ε σ β} :
    outcome (x >>= f) s = outcome x s >>= fun r => outcome (f r.1) r.2 := by
  change outcome (EStateM.bind x f) s = _
  unfold outcome EStateM.bind
  cases x s <;> rfl

theorem outcome_action {g : σ → Except ε (α × σ)} : outcome (action g) s = g s := by
  unfold outcome action
  cases g s <;> rfl

theorem does_effect (g : σ → Except ε σ) : Does (effect g) g := fun _ => outcome_action

theorem does_update (g : σ → σ) : Does (update g) fun s => (.ok (g s) : Except ε σ) :=
  does_effect _

theorem Does.seq {x y : EStateM ε σ PUnit} {f g : σ → Except ε σ} (hx : Does x f) (hy : Does y g) :
    Does (x >>= fun _ => y) fun s => f s >>= g := by
  intro s
  change _ = (f s >>= g).map _
  rw [outcome_bind, hx s]
  cases f s with
  | error e => rfl
  | ok t => exact hy t

theorem does_forM {g : α → EStateM ε σ PUnit} {step : σ → α → Except ε σ}
    (h : ∀ a, Does (g a) fun s => step s a) (l : List α) :
    Does (l.forM g) fun s => l.foldlM step s := by
  induction l with
  | nil => exact fun _ => rfl
  | cons a l ih => exact (h a).seq ih

end Outcome

section Leaves
variable {P P' : σ → Prop} {E E' I : σ → Prop} {x : EStateM ε σ α} {Q Q' : α → σ → Prop}

theorem Leaves.conseq (h : Leaves P x Q E) (hP : ∀ s, P' s → P s) (hQ : ∀ a s, Q a s → Q' a s)
    (hE : ∀ s, E s → E' s) : Leaves P' x Q' E' := by
  intro s hs
  have hx := h s (hP s hs)
  cases hrun : x s with
  | ok a t =>
    rw [hrun] at hx
    exact hQ a t hx
  | error e t =>
    rw [hrun] at hx
    exact hE t hx

theorem leaves_pure {a : α} (h : ∀ s, P s → Q a s) : Leaves P (pure a : EStateM ε σ α) Q E := h

theorem Leaves.bind {f : α → EStateM ε σ β} {R : β → σ → Prop} (hx : Leaves P x Q E)
    (hf : ∀ a, Leaves (Q a) (f a) R E) : Leaves P (x >>= f) R E := by
  intro s hs
  have hx := hx s hs
  change match EStateM.bind x f s with
    | .ok a t => R a t
    | .error _ t => E t
  unfold EStateM.bind
  cases hrun : x s with
  | ok a t =>
    rw [hrun] at hx
    exact hf a t hx
  | error e t =>
    rw [hrun] at hx
    exact hx

theorem leaves_action {g : σ → Except ε (α × σ)} (hQ : ∀ s a t, P s → g s = .ok (a, t) → Q a t)
    (hE : ∀ s, P s → E s) : Leaves P (action g) Q E := by
  intro s hs
  unfold action
  cases hg : g s with
  | ok r => exact hQ s r.1 r.2 hs hg
  | error e => exact hE s hs

theorem leaves_effect {g : σ → Except ε σ} {Q : σ → Prop} (hQ : ∀ s t, P s → g s = .ok t → Q t)
    (hE : ∀ s, P s → E s) : Leaves P (effect g) (fun _ => Q) E := by
  refine leaves_action ?_ hE
  intro s a t hs hg
  cases hstep : g s with
  | ok u =>
    rw [hstep] at hg
    cases hg
    exact hQ s t hs hstep
  | error e =>
    rw [hstep] at hg
    cases hg

theorem leaves_forM {g : α → EStateM ε σ PUnit} {l : List α}
    (h : ∀ a ∈ l, Leaves I (g a) (fun _ => I) I) : Leaves I (l.forM g) (fun _ => I) I := by
  induction l with
  | nil => exact leaves_pure fun _ hs => hs
  | cons a l ih =>
    obtain ⟨ha, hl⟩ := List.forall_mem_cons.mp h
    have hcons : (a :: l).forM g = g a >>= fun _ => l.forM g := List.forM_cons
    rw [hcons]
    exact ha.bind fun _ => ih hl

end Leaves
end Warhead.Lib.Interrupted
