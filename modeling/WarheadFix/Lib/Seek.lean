import WarheadFix.Lib.Memory

/-! Searching along a step that can fail. A search goes on until a place to stop, and the fuel
of a loop is enough as soon as there are only so many places to step from. -/

namespace Warhead.Lib
universe u v w

section Seek
variable {ε : Type u} {α : Type v} {κ : Type w} {step : α → Outcome ε α} {stop other : α → Prop}
  {n m fuel : ℕ} {a b c : α}

def seek (step : α → Outcome ε α) (stop : α → Prop) [DecidablePred stop] :
    ℕ → α → Outcome ε α
  | 0, _ => .error .diverges
  | fuel + 1, a => if stop a then .ok a else do seek step stop fuel (← step a)

def Reach (step : α → Outcome ε α) (stop : α → Prop) : ℕ → α → α → Prop
  | 0, a, b => a = b
  | n + 1, a, b => ¬stop a ∧ ∃ c, step a = .ok c ∧ Reach step stop n c b

def Ends (step : α → Outcome ε α) (stop : α → Prop) (a : α) : Prop :=
  ∃ n b, Reach step stop n a b ∧ stop b

theorem Reach.trans (h : Reach step stop n a b) (h' : Reach step stop m b c) :
    Reach step stop (n + m) a c := by
  induction n generalizing a with
  | zero =>
    rw [Nat.zero_add, show a = b from h]
    exact h'
  | succ n ih =>
    obtain ⟨ha, d, hd, hdb⟩ := h
    rw [Nat.add_right_comm]
    exact ⟨ha, d, hd, ih hdb⟩

theorem Reach.mono (hstop : ∀ x, stop x → other x) (h : Reach step other n a b) :
    Reach step stop n a b := by
  induction n generalizing a with
  | zero => exact h
  | succ n ih =>
    obtain ⟨ha, d, hd, hdb⟩ := h
    exact ⟨mt (hstop a) ha, d, hd, ih hdb⟩

theorem Reach.unique (h : Reach step stop n a b) (hb : stop b) (h' : Reach step stop m a c)
    (hc : stop c) : n = m ∧ b = c := by
  induction n generalizing a m with
  | zero =>
    have hab : a = b := h
    cases m with
    | zero => exact ⟨rfl, hab.symm.trans h'⟩
    | succ m => exact absurd (hab ▸ hb) h'.1
  | succ n ih =>
    obtain ⟨ha, d, hd, hdb⟩ := h
    cases m with
    | zero =>
      have hac : a = c := h'
      exact absurd (hac ▸ hc) ha
    | succ m =>
      obtain ⟨-, e, he, hec⟩ := h'
      rw [hd] at he
      rw [← Except.ok.inj he] at hec
      obtain ⟨hn, hbc⟩ := ih hdb hec
      exact ⟨congrArg Nat.succ hn, hbc⟩

theorem Reach.exists_first (h : Reach step stop n a b) (other : α → Prop) (hb : other b) :
    ∃ k m c, Reach step other k a c ∧ other c ∧ Reach step stop k a c ∧
      Reach step stop m c b := by
  induction n generalizing a with
  | zero =>
    have hab : a = b := h
    exact ⟨0, 0, a, rfl, hab ▸ hb, rfl, hab⟩
  | succ n ih =>
    by_cases ha : other a
    · exact ⟨0, n + 1, a, rfl, ha, rfl, h⟩
    · obtain ⟨hstop, d, hd, hdb⟩ := h
      obtain ⟨k, m, c, hk, hc, hkc, hm⟩ := ih hdb
      exact ⟨k + 1, m, c, ⟨ha, d, hd, hk⟩, hc, ⟨hstop, d, hd, hkc⟩, hm⟩

theorem Ends.of_reach (hb : Ends step stop b) (h : Reach step stop n a b) : Ends step stop a := by
  obtain ⟨m, c, hm, hc⟩ := hb
  exact ⟨n + m, c, h.trans hm, hc⟩

theorem Ends.advance (h : Ends step stop a) (ha : ¬stop a) :
    ∃ b, step a = .ok b ∧ Ends step stop b := by
  obtain ⟨n, c, hn, hc⟩ := h
  cases n with
  | zero =>
    have hac : a = c := hn
    exact absurd (hac ▸ hc) ha
  | succ n =>
    obtain ⟨-, b, hb, hbc⟩ := hn
    exact ⟨b, hb, n, c, hbc, hc⟩

/-! ## Fuel -/

section Loop
variable [DecidablePred stop]

theorem seek_ok (h : seek step stop fuel a = .ok b) : stop b ∧ ∃ n, Reach step stop n a b := by
  induction fuel generalizing a with
  | zero => cases h
  | succ fuel ih =>
    unfold seek at h
    split_ifs at h with ha
    · cases h
      exact ⟨ha, 0, rfl⟩
    · obtain ⟨c, hc, h⟩ := bind_eq_ok.mp h
      obtain ⟨hb, n, hn⟩ := ih h
      exact ⟨hb, n + 1, ha, c, hc, hn⟩

theorem seek_of_reach (h : Reach step stop n a b) (hb : stop b) (hn : n < fuel) :
    seek step stop fuel a = .ok b := by
  induction n generalizing a fuel with
  | zero =>
    have hab : a = b := h
    obtain ⟨fuel, rfl⟩ := Nat.exists_eq_add_one.mpr hn
    rw [seek, hab, if_pos hb]
  | succ n ih =>
    obtain ⟨ha, d, hd, hdb⟩ := h
    obtain ⟨fuel, rfl⟩ := Nat.exists_eq_add_one.mpr ((Nat.succ_pos n).trans hn)
    rw [seek, if_neg ha, hd]
    exact ih hdb (Nat.lt_of_succ_lt_succ hn)

end Loop

structure Keyed (step : α → Outcome ε α) (key : α → κ) (K : Finset κ) : Prop where
  congr : ∀ x y, key x = key y → step x = step y
  mem : ∀ x y, step x = .ok y → key x ∈ K

section Keyed
variable {key : α → κ} {K : Finset κ} (hstep : Keyed step key K)
include hstep

theorem Keyed.exists_keys (h : Reach step stop n a b) (hb : stop b) :
    ∃ ks : List κ, ks.length = n ∧ ks.Nodup ∧ (∀ k ∈ ks, k ∈ K) ∧
      ∀ k ∈ ks, ∃ x m, key x = k ∧ m < n ∧ Reach step stop (m + 1) x b := by
  -- the way from a second place with the same key would be both as long and shorter
  induction n generalizing a with
  | zero => exact ⟨[], rfl, List.nodup_nil, fun _ => nofun, fun _ => nofun⟩
  | succ n ih =>
    have hlast : Reach step stop (n + 1) a b := h
    obtain ⟨ha, c, hc, hcb⟩ := h
    obtain ⟨ks, hlength, hnodup, hmem, hway⟩ := ih hcb
    have hnew : key a ∉ ks := by
      intro hk
      obtain ⟨x, m, hx, hm, -, d, hd, hdb⟩ := hway _ hk
      rw [hstep.congr x a hx, hc] at hd
      rw [← Except.ok.inj hd] at hdb
      exact absurd (hcb.unique hb hdb hb).1 hm.ne'
    refine ⟨key a :: ks, congrArg Nat.succ hlength, List.nodup_cons.mpr ⟨hnew, hnodup⟩, ?_, ?_⟩
    · exact List.forall_mem_cons.mpr ⟨hstep.mem a c hc, hmem⟩
    · intro k hk
      obtain rfl | hk := List.mem_cons.mp hk
      · exact ⟨a, n, rfl, Nat.lt_succ_self n, hlast⟩
      · obtain ⟨x, m, hx, hm, hxb⟩ := hway k hk
        exact ⟨x, m, hx, hm.trans (Nat.lt_succ_self n), hxb⟩

theorem Keyed.length_le [DecidableEq κ] (h : Reach step stop n a b) (hb : stop b) :
    n ≤ K.card := by
  obtain ⟨ks, hlength, hnodup, hmem, -⟩ := hstep.exists_keys h hb
  rw [← hlength, ← List.toFinset_card_of_nodup hnodup]
  apply Finset.card_le_card
  intro k hk
  exact hmem k (List.mem_toFinset.mp hk)

/-- With enough fuel a search returns exactly if it ends. -/
theorem Keyed.seek_eq_ok_iff [DecidableEq κ] [DecidablePred stop] (hfuel : K.card < fuel) :
    seek step stop fuel a = .ok b ↔ stop b ∧ ∃ n, Reach step stop n a b := by
  constructor
  · exact seek_ok
  · rintro ⟨hb, n, hn⟩
    exact seek_of_reach hn hb ((hstep.length_le hn hb).trans_lt hfuel)

end Keyed
end Seek
end Warhead.Lib
