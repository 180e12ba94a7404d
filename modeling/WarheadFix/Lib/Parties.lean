import WarheadFix.Lib.System

/-! Several parties in one machine. Each party is a machine of its own, and a step of the whole is
a step of the one party that the event is for, or of none. A run then shows every party a run of
its own, in which nothing of the others occurs. -/

namespace Warhead.Lib
universe u v w x y

/-- The parties that the index names, each with what it sees of the states and the events. -/
structure Parties {τ : Type w} {δ : Type x} {σ : Type u} {ε : Type v} (A : System τ δ)
    (S : System σ ε) (ι : Type y) where
  party : τ → ι → σ
  event : ι → δ → Option ε
  inv : τ → Prop
  inv_start : inv A.start
  inv_step : ∀ s d t, inv s → A.step s d = some t → inv t
  start : ∀ i, party A.start i = S.start
  own : ∀ s d t i e, inv s → A.step s d = some t → event i d = some e →
    S.step (party s i) e = some (party t i)
  others : ∀ s d t i, inv s → A.step s d = some t → event i d = none → party t i = party s i

namespace Parties
variable {τ : Type w} {δ : Type x} {σ : Type u} {ε : Type v} {ι : Type y}
  {A : System τ δ} {S : System σ ε} (m : Parties A S ι) {s t : τ} {ds fs : List δ}

theorem inv_run (hs : m.inv s) (h : A.runFrom s ds = some t) : m.inv t :=
  A.runFrom_invariant m.inv_step hs h

theorem run_from (hs : m.inv s) (h : A.runFrom s ds = some t) (i : ι) :
    S.runFrom (m.party s i) (ds.filterMap (m.event i)) = some (m.party t i) := by
  induction ds generalizing s with
  | nil =>
    rw [Option.some.inj h]
    rfl
  | cons d ds ih =>
    obtain ⟨u, hu, hrest⟩ := System.runFrom_cons.mp h
    have hnext := ih (m.inv_step s d u hs hu) hrest
    cases he : m.event i d with
    | none =>
      rw [List.filterMap_cons_none he, ← m.others s d u i hs hu he]
      exact hnext
    | some e =>
      rw [List.filterMap_cons_some he]
      exact System.runFrom_cons.mpr ⟨_, m.own s d u i e hs hu he, hnext⟩

theorem run (h : A.runFrom A.start ds = some t) (i : ι) :
    S.runFrom S.start (ds.filterMap (m.event i)) = some (m.party t i) := by
  rw [← m.start i]
  exact m.run_from m.inv_start h i

theorem isolated {u : τ} {i : ι} (h : A.runFrom A.start ds = some t)
    (h' : A.runFrom A.start fs = some u)
    (he : ds.filterMap (m.event i) = fs.filterMap (m.event i)) : m.party t i = m.party u i := by
  have hrun := m.run h i
  rw [he] at hrun
  exact Option.some.inj (hrun.symm.trans (m.run h' i))

end Parties
end Warhead.Lib
