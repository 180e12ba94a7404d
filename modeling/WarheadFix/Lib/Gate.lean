import WarheadFix.Lib.System

/-! A gate. One kind of call comes first and opens it, another kind may come as often as it
likes once it is open, and a call that is not accepted shuts it for good. -/

namespace Warhead.Lib
universe u

structure Gate (κ : Type u) where
  trace : List (κ × Bool)
  opened : Bool
  shut : Bool

namespace Gate
variable {κ : Type u} [DecidableEq κ] {first later : κ}

/-- `call k accepted opens`: an accepted call opens the gate, a failed one may. -/
inductive Event (κ : Type u) where
  | call (k : κ) (accepted opens : Bool)
  | shut

def due (first later : κ) (g : Gate κ) : κ := if g.opened then later else first

def step (first later : κ) (g : Gate κ) : Event κ → Option (Gate κ)
  | .call k accepted opens =>
    if g.shut = false ∧ k = g.due first later ∧ (accepted = true → opens = true) then
      some ⟨g.trace ++ [(k, accepted)], g.opened || opens, !accepted⟩
    else none
  | .shut => some { g with shut := true }

def system (first later : κ) : System (Gate κ) (Event κ) := ⟨⟨[], false, false⟩, step first later⟩

/-- The first call is of the first kind, all others are of the later kind, and there are
others only if the first was accepted. -/
def Ordered (first later : κ) (trace : List (κ × Bool)) : Prop :=
  ∀ c cs, trace = c :: cs → c.1 = first ∧ (∀ d ∈ cs, d.1 = later) ∧ (cs ≠ [] → c.2 = true)

structure Inv (first later : κ) (g : Gate κ) : Prop where
  ordered : Ordered first later g.trace
  fresh : g.shut = false → g.opened = false → g.trace = []
  started : g.shut = false → g.opened = true → ∃ c cs, g.trace = c :: cs ∧ c.2 = true

theorem Inv.step {g g' : Gate κ} {e : Event κ} (h : Inv first later g)
    (hs : g.step first later e = some g') : Inv first later g' := by
  cases e with
  | shut =>
    obtain rfl := Option.some.inj hs
    exact ⟨h.ordered, nofun, nofun⟩
  | call k accepted opens =>
    simp only [Gate.step] at hs
    split_ifs at hs with hg
    obtain ⟨hshut, rfl, hopens⟩ := hg
    obtain rfl := Option.some.inj hs
    cases hop : g.opened with
    | false =>
      have hnil := h.fresh hshut hop
      refine ⟨?_, ?_, ?_⟩
      · rintro c cs hcs
        rw [hnil, List.nil_append] at hcs
        obtain ⟨rfl, rfl⟩ := List.cons.inj hcs
        exact ⟨by simp [due, hop], by simp, by simp⟩
      · intro ha ho
        have : opens = true := hopens (by simpa using ha)
        simp [this] at ho
      · intro ha _
        exact ⟨_, [], by rw [hnil, List.nil_append], by simpa using ha⟩
    | true =>
      obtain ⟨c, cs, htrace, hc⟩ := h.started hshut hop
      obtain ⟨hfirst, hlater, -⟩ := h.ordered c cs htrace
      refine ⟨?_, by simp, ?_⟩
      · rintro d ds hds
        rw [htrace, List.cons_append] at hds
        obtain ⟨rfl, rfl⟩ := List.cons.inj hds
        refine ⟨hfirst, fun x hx => ?_, fun _ => hc⟩
        rcases List.mem_append.mp hx with hx | hx
        · exact hlater x hx
        · rw [List.mem_singleton.mp hx]
          simp [due, hop]
      · intro _ _
        exact ⟨c, cs ++ [_], by rw [htrace, List.cons_append], hc⟩

theorem ordered_of_reachable {g : Gate κ} (h : (system first later).Reachable g) :
    Ordered first later g.trace := by
  have h0 : Inv first later (system first later).start := ⟨nofun, fun _ _ => rfl, nofun⟩
  exact (h.invariant h0 fun _ _ _ => Inv.step).ordered

omit [DecidableEq κ] in
/-- In order, the calls are a prefix of the first kind and then the later kind forever. -/
theorem Ordered.keys {trace : List (κ × Bool)} (h : Ordered first later trace) :
    ∃ n, trace.map Prod.fst <+: first :: List.replicate n later := by
  cases trace with
  | nil => exact ⟨0, List.nil_prefix⟩
  | cons c cs =>
    obtain ⟨hc, hcs, -⟩ := h c cs rfl
    refine ⟨cs.length, ?_⟩
    have hrep : cs.map Prod.fst = List.replicate cs.length later := by
      refine List.eq_replicate_iff.mpr ⟨List.length_map _, fun k hk => ?_⟩
      obtain ⟨d, hd, rfl⟩ := List.mem_map.mp hk
      exact hcs d hd
    have hkeys : (c :: cs).map Prod.fst = first :: List.replicate cs.length later := by
      rw [List.map_cons, hrep, hc]
    exact ⟨[], by rw [List.append_nil, hkeys]⟩

end Gate
end Warhead.Lib
