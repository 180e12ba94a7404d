import Mathlib

/-! Guarded machines: an event that is not enabled has no successor. A run is a
list of events, and the rules below carry an invariant along it, compare a
property of the states with a condition on the steps, and project a run onto a
coarser machine. -/

namespace Warhead.Lib
universe u v w x

structure System (σ : Type u) (ε : Type v) where
  start : σ
  step : σ → ε → Option σ

namespace System
variable {σ : Type u} {ε : Type v} {S : System σ ε}

def runFrom (S : System σ ε) : σ → List ε → Option σ
  | s, [] => some s
  | s, e :: es => (S.step s e).bind fun t => runFrom S t es

def Reachable (S : System σ ε) (t : σ) : Prop := ∃ es, S.runFrom S.start es = some t

theorem runFrom_cons {s t : σ} {e : ε} {es : List ε} :
    S.runFrom s (e :: es) = some t ↔ ∃ m, S.step s e = some m ∧ S.runFrom m es = some t := by
  simp only [runFrom, Option.bind_eq_some_iff]

theorem runFrom_append {s t : σ} {es fs : List ε} :
    S.runFrom s (es ++ fs) = some t ↔ ∃ m, S.runFrom s es = some m ∧ S.runFrom m fs = some t := by
  induction es generalizing s with
  | nil => simp [runFrom]
  | cons e es ih =>
    simp only [List.cons_append, runFrom_cons, ih]
    constructor
    · rintro ⟨a, ha, m, hm, ht⟩
      exact ⟨m, ⟨a, ha, hm⟩, ht⟩
    · rintro ⟨m, ⟨a, ha, hm⟩, ht⟩
      exact ⟨a, ha, m, hm, ht⟩

theorem reachable_start (S : System σ ε) : S.Reachable S.start := ⟨[], rfl⟩

theorem Reachable.step {s t : σ} {e : ε} (hs : S.Reachable s) (h : S.step s e = some t) :
    S.Reachable t := by
  obtain ⟨es, hes⟩ := hs
  exact ⟨es ++ [e], runFrom_append.mpr ⟨s, hes, runFrom_cons.mpr ⟨t, h, rfl⟩⟩⟩

theorem runFrom_invariant {I : σ → Prop} (hstep : ∀ s e t, I s → S.step s e = some t → I t)
    {s t : σ} {es : List ε} (hs : I s) (h : S.runFrom s es = some t) : I t := by
  induction es generalizing s with
  | nil => exact Option.some.inj h ▸ hs
  | cons e es ih =>
    obtain ⟨m, hm, ht⟩ := runFrom_cons.mp h
    exact ih (hstep s e m hs hm) ht

theorem Reachable.invariant {I : σ → Prop} (h0 : I S.start)
    (hstep : ∀ s e t, I s → S.step s e = some t → I t) {t : σ} (h : S.Reachable t) : I t := by
  obtain ⟨es, hes⟩ := h
  exact runFrom_invariant hstep h0 hes

def Throughout (S : System σ ε) (P : σ → Prop) : σ → List ε → Prop
  | s, [] => P s
  | s, e :: es => P s ∧ ∀ t, S.step s e = some t → Throughout S P t es

def Along (S : System σ ε) (C : σ → ε → Prop) : σ → List ε → Prop
  | _, [] => True
  | s, e :: es => ∀ t, S.step s e = some t → C s e ∧ Along S C t es

theorem Throughout.head {P : σ → Prop} {s : σ} {es : List ε} (h : S.Throughout P s es) : P s := by
  cases es with
  | nil => exact h
  | cons e es => exact h.1

/-- A run keeps a property exactly as long as its steps meet the condition, if that is so
of each single step. The invariant `I` is what is known of the states besides. -/
theorem throughout_iff_along {I P : σ → Prop} {C : σ → ε → Prop}
    (hI : ∀ s e t, I s → S.step s e = some t → I t)
    (hP : ∀ s e t, I s → P s → S.step s e = some t → (P t ↔ C s e))
    {s : σ} {es : List ε} (hs : I s) (hps : P s) : S.Throughout P s es ↔ S.Along C s es := by
  induction es generalizing s with
  | nil => exact ⟨fun _ => trivial, fun _ => hps⟩
  | cons e es ih =>
    constructor
    · intro h t ht
      have hpt : P t := (h.2 t ht).head
      exact ⟨(hP s e t hs hps ht).mp hpt, (ih (hI s e t hs ht) hpt).mp (h.2 t ht)⟩
    · intro h
      refine ⟨hps, fun t ht => ?_⟩
      have hpt : P t := (hP s e t hs hps ht).mpr (h t ht).1
      exact (ih (hI s e t hs ht) hpt).mpr (h t ht).2

/-- The rule for one direction, where the condition is enough for what the step preserves. -/
theorem Along.invariant {I : σ → Prop} {C : σ → ε → Prop}
    (hstep : ∀ s e t, I s → C s e → S.step s e = some t → I t)
    {s t : σ} {es : List ε} (hs : I s) (hC : S.Along C s es) (h : S.runFrom s es = some t) :
    I t := by
  induction es generalizing s with
  | nil => exact Option.some.inj h ▸ hs
  | cons e es ih =>
    obtain ⟨m, hm, ht⟩ := runFrom_cons.mp h
    exact ih (hstep s e m hs (hC m hm).1 hm) (hC m hm).2 ht

/-- Two properties that agree where the invariant holds agree along a run, if either of them is
enough for a step to keep the invariant. -/
theorem throughout_congr {I P Q : σ → Prop} (hPQ : ∀ s, I s → (P s ↔ Q s))
    (hI : ∀ s e t, I s → P s → S.step s e = some t → I t) {s : σ} {es : List ε} (hs : I s) :
    S.Throughout P s es ↔ S.Throughout Q s es := by
  induction es generalizing s with
  | nil => exact hPQ s hs
  | cons e es ih =>
    constructor
    · rintro ⟨hp, hrest⟩
      exact ⟨(hPQ s hs).mp hp, fun t ht => (ih (hI s e t hs hp ht)).mp (hrest t ht)⟩
    · rintro ⟨hq, hrest⟩
      have hp : P s := (hPQ s hs).mpr hq
      exact ⟨hp, fun t ht => (ih (hI s e t hs hp ht)).mpr (hrest t ht)⟩

section Simulation
variable {τ : Type w} {δ : Type x}

/-- A step of the finer machine is a step of the coarser one, or leaves its view unchanged. -/
structure Simulation (S : System σ ε) (A : System τ δ) where
  view : σ → τ
  inv : σ → Prop
  inv_start : inv S.start
  inv_step : ∀ s e t, inv s → S.step s e = some t → inv t
  view_start : view S.start = A.start
  matched : ∀ s e t, inv s → S.step s e = some t →
    view t = view s ∨ ∃ d, A.step (view s) d = some (view t)

theorem Simulation.inv_reachable {A : System τ δ} (m : Simulation S A) {t : σ}
    (h : S.Reachable t) : m.inv t :=
  h.invariant m.inv_start m.inv_step

theorem Simulation.reachable {A : System τ δ} (m : Simulation S A) {t : σ}
    (h : S.Reachable t) : A.Reachable (m.view t) := by
  have hstep : ∀ s e t, m.inv s ∧ A.Reachable (m.view s) → S.step s e = some t →
      m.inv t ∧ A.Reachable (m.view t) := by
    rintro s e t ⟨hi, hr⟩ he
    refine ⟨m.inv_step s e t hi he, ?_⟩
    rcases m.matched s e t hi he with heq | ⟨d, hd⟩
    · exact heq ▸ hr
    · exact hr.step hd
  exact (h.invariant ⟨m.inv_start, m.view_start ▸ A.reachable_start⟩ hstep).2

end Simulation
end System
end Warhead.Lib
