import WarheadFix.Lib.System

/-! A first-in first-out channel: what is enqueued is pending until it is transferred,
and nothing is lost, repeated or overtaken on the way. -/

namespace Warhead.Lib
universe u

structure Channel (β : Type u) where
  enqueued : List β
  sent : List β
  pending : List β

namespace Channel
variable {β : Type u}

inductive Event (β : Type u) where
  | enqueue (bs : List β)
  | transfer (n : Nat)

def step (c : Channel β) : Event β → Option (Channel β)
  | .enqueue bs => some { c with enqueued := c.enqueued ++ bs, pending := c.pending ++ bs }
  | .transfer n =>
    if n ≤ c.pending.length then
      some { c with sent := c.sent ++ c.pending.take n, pending := c.pending.drop n }
    else none

def system (β : Type u) : System (Channel β) (Event β) := ⟨⟨[], [], []⟩, step⟩

def Conserved (c : Channel β) : Prop := c.sent ++ c.pending = c.enqueued

theorem Conserved.step {c d : Channel β} {e : Event β} (h : c.Conserved)
    (hstep : c.step e = some d) : d.Conserved := by
  cases e with
  | enqueue bs =>
    obtain rfl := Option.some.inj hstep
    change c.sent ++ (c.pending ++ bs) = c.enqueued ++ bs
    rw [← List.append_assoc, h]
  | transfer n =>
    simp only [Channel.step] at hstep
    split_ifs at hstep
    obtain rfl := Option.some.inj hstep
    change c.sent ++ c.pending.take n ++ c.pending.drop n = c.enqueued
    rw [List.append_assoc, List.take_append_drop, h]

theorem conserved_of_reachable {c : Channel β} (h : (system β).Reachable c) : c.Conserved := by
  have h0 : (system β).start.Conserved := rfl
  exact h.invariant h0 fun _ _ _ => Conserved.step

def resetStep (c : Channel β) : Option (Event β) → Option (Channel β)
  | none => some ⟨[], [], []⟩
  | some e => c.step e

def resettable (β : Type u) : System (Channel β) (Option (Event β)) := ⟨⟨[], [], []⟩, resetStep⟩

theorem conserved_of_resettable {c : Channel β} (h : (resettable β).Reachable c) :
    c.Conserved := by
  have h0 : (resettable β).start.Conserved := rfl
  apply h.invariant h0
  intro c e d hc hd
  cases e with
  | none => exact Option.some.inj hd ▸ h0
  | some e => exact Conserved.step hc hd

def Advances (c d : Channel β) : Prop :=
  d.enqueued = c.enqueued ∧ ∃ moved, c.pending = moved ++ d.pending ∧ d.sent = c.sent ++ moved

theorem Advances.refl (c : Channel β) : Advances c c :=
  ⟨rfl, [], rfl, (List.append_nil _).symm⟩

theorem Advances.trans {a b c : Channel β} (h : Advances a b) (h' : Advances b c) :
    Advances a c := by
  obtain ⟨he, m, hp, hs⟩ := h
  obtain ⟨he', m', hp', hs'⟩ := h'
  refine ⟨he'.trans he, m ++ m', ?_, ?_⟩
  · rw [hp, hp', List.append_assoc]
  · rw [hs', hs, List.append_assoc]

theorem Advances.step {c d : Channel β} (h : Advances c d) : ∃ e, c.step e = some d := by
  obtain ⟨he, m, hp, hs⟩ := h
  refine ⟨.transfer m.length, ?_⟩
  have hle : m.length ≤ c.pending.length := by simp [hp]
  simp only [Channel.step]
  rw [if_pos hle, hp, List.take_left, List.drop_left, ← hs, ← he]

/-! ## Loss -/

instance [DecidableEq β] (c : Channel β) : Decidable c.Conserved :=
  inferInstanceAs (Decidable (_ = _))

def Lossy (c : Channel β) : Prop := c.sent.length + c.pending.length < c.enqueued.length

def Sheds (c d : Channel β) : Prop :=
  ∃ m n, Advances c m ∧ d = { m with pending := m.pending.drop n }

theorem Advances.sheds {c d : Channel β} (h : Advances c d) : Sheds c d := ⟨d, 0, h, rfl⟩

theorem Sheds.advances {a b c : Channel β} (h : Advances a b) (h' : Sheds b c) : Sheds a c := by
  obtain ⟨m, n, hm, rfl⟩ := h'
  exact ⟨m, n, h.trans hm, rfl⟩

theorem Advances.length_eq {c d : Channel β} (h : Advances c d) :
    d.sent.length + d.pending.length = c.sent.length + c.pending.length := by
  obtain ⟨-, m, hp, hs⟩ := h
  rw [hp, hs, List.length_append, List.length_append, Nat.add_assoc]

theorem Advances.conserved {c d : Channel β} (h : Advances c d) (hc : c.Conserved) :
    d.Conserved := by
  obtain ⟨e, he⟩ := h.step
  exact hc.step he

theorem Sheds.of_conserved {c d : Channel β} (h : Sheds c d) (hc : c.Conserved) :
    (d.Conserved ∨ d.Lossy) ∧ d.sent <+: d.enqueued := by
  obtain ⟨m, n, hm, rfl⟩ := h
  have hall : m.sent ++ m.pending = m.enqueued := hm.conserved hc
  refine ⟨?_, ⟨m.pending, hall⟩⟩
  by_cases hnone : m.pending.drop n = m.pending
  · exact .inl ((congrArg (m.sent ++ ·) hnone).trans hall)
  · right
    have hlen := congrArg List.length hall
    have hlt : (m.pending.drop n).length < m.pending.length := by
      refine lt_of_le_of_ne (List.drop_sublist n _).length_le fun heq => hnone ?_
      exact (List.drop_sublist n m.pending).eq_of_length heq
    rw [List.length_append] at hlen
    change m.sent.length + (m.pending.drop n).length < m.enqueued.length
    omega

theorem Sheds.lossy {c d : Channel β} (h : Sheds c d) (hc : c.Lossy) : d.Lossy := by
  obtain ⟨m, n, hm, rfl⟩ := h
  have hle : (m.pending.drop n).length ≤ m.pending.length := (List.drop_sublist n _).length_le
  have hlen := hm.length_eq
  have henq : m.enqueued = c.enqueued := hm.1
  unfold Lossy at hc
  change m.sent.length + (m.pending.drop n).length < m.enqueued.length
  rw [henq]
  omega

def Proceeds (c d : Channel β) : Prop := Sheds c d ∨ ∃ bs, c.step (.enqueue bs) = some d

theorem Proceeds.of_conserved {c d : Channel β} (h : Proceeds c d) (hc : c.Conserved) :
    (d.Conserved ∨ d.Lossy) ∧ d.sent <+: d.enqueued := by
  rcases h with hshed | ⟨bs, henq⟩
  · exact hshed.of_conserved hc
  · have hd : d.Conserved := hc.step henq
    exact ⟨.inl hd, d.pending, hd⟩

theorem Proceeds.lossy {c d : Channel β} (h : Proceeds c d) (hc : c.Lossy) : d.Lossy := by
  rcases h with hshed | ⟨bs, henq⟩
  · exact hshed.lossy hc
  · obtain rfl := Option.some.inj henq
    simp only [Lossy, List.length_append] at hc ⊢
    omega

theorem Proceeds.enqueued {c d : Channel β} (h : Proceeds c d) : c.enqueued <+: d.enqueued := by
  rcases h with ⟨m, n, hm, rfl⟩ | ⟨bs, henq⟩
  · exact hm.1 ▸ List.prefix_rfl
  · obtain rfl := Option.some.inj henq
    exact List.prefix_append _ _

end Channel
end Warhead.Lib
