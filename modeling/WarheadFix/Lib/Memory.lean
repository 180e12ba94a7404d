import Mathlib

/-! Byte memory as the code sees it through a pointer. A read outside the memory is
undefined, and a computation that stayed inside keeps its result when more bytes
follow: that is `Stable`, which is closed under sequencing and branching. -/

namespace Warhead.Lib
universe u v

abbrev Bytes := List UInt8

def ascii (s : String) : Bytes := s.toList.map Char.toUInt8

def SOH : UInt8 := 1

/-- How a call can end other than by returning: an exception, a failed assertion, a read
or write outside the storage, or a loop that never ends. -/
inductive Fault (ε : Type u) where
  | thrown (e : ε)
  | aborted
  | undefined
  | diverges
  deriving DecidableEq, Repr

abbrev Outcome (ε : Type u) (α : Type v) := Except (Fault ε) α

section Reads
variable {ε : Type u} {α β : Type v}

theorem bind_eq_ok {x : Except ε α} {f : α → Except ε β} {b : β} :
    x >>= f = .ok b ↔ ∃ a, x = .ok a ∧ f a = .ok b := by
  cases x with
  | error f => exact ⟨nofun, nofun⟩
  | ok a => exact ⟨fun h => ⟨a, rfl, h⟩, fun ⟨_, ha, h⟩ => by rwa [← Except.ok.inj ha] at h⟩

theorem bind_of_ok {x : Except ε α} {a : α} (h : x = .ok a) (f : α → Except ε β) :
    x >>= f = f a := by
  rw [h]
  rfl

theorem map_eq_ok {x : Except ε α} {f : α → β} {b : β} :
    x.map f = .ok b ↔ ∃ a, x = .ok a ∧ f a = b := by
  cases x with
  | error f => exact ⟨nofun, nofun⟩
  | ok a =>
    constructor
    · exact fun h => ⟨a, rfl, Except.ok.inj h⟩
    · rintro ⟨_, ha, h⟩
      rw [Except.ok.inj ha]
      exact congrArg _ h

def suffix (mem : Bytes) (p : Int) : Bytes := if p < 0 then [] else mem.drop p.toNat

def byteAt (mem : Bytes) (p : Int) : Outcome ε UInt8 :=
  match suffix mem p with
  | [] => .error .undefined
  | c :: _ => .ok c

def span (mem : Bytes) (b e : Int) : Outcome ε Bytes :=
  if e ≤ b then .ok []
  else if b < 0 ∨ (mem.length : Int) < e then .error .undefined
  else .ok ((mem.drop b.toNat).take (e - b).toNat)

@[simp] theorem suffix_natCast (mem : Bytes) (n : Nat) : suffix mem (n : Int) = mem.drop n := by
  rw [suffix, if_neg (by omega), Int.toNat_natCast]

theorem byteAt_natCast (mem : Bytes) (n : Nat) :
    (byteAt mem (n : Int) : Outcome ε UInt8) =
      match mem[n]? with
      | none => .error .undefined
      | some c => .ok c := by
  rw [byteAt, suffix_natCast]
  cases h : mem[n]? with
  | none => rw [List.drop_eq_nil_of_le (List.getElem?_eq_none_iff.mp h)]
  | some c =>
    obtain ⟨hn, rfl⟩ := List.getElem?_eq_some_iff.mp h
    rw [List.drop_eq_getElem_cons hn]

theorem byteAt_eq_ok {mem : Bytes} {p : Int} {c : UInt8}
    (h : (byteAt mem p : Outcome ε UInt8) = .ok c) : 0 ≤ p ∧ mem[p.toNat]? = some c := by
  by_cases hp : p < 0
  · simp [byteAt, suffix, hp] at h
  · have hn : p = ((p.toNat : Nat) : Int) := (Int.toNat_of_nonneg (by omega)).symm
    rw [hn, byteAt_natCast] at h
    refine ⟨by omega, ?_⟩
    cases hc : mem[p.toNat]? with
    | none => simp [hc] at h
    | some d =>
      simp only [hc, Except.ok.injEq] at h
      rw [h]

theorem byteAt_of_getElem? {mem : Bytes} {n : Nat} {c : UInt8} (h : mem[n]? = some c) :
    (byteAt mem (n : Int) : Outcome ε UInt8) = .ok c := by
  rw [byteAt_natCast, h]

def Stable (f : Bytes → Outcome ε α) : Prop :=
  ∀ ⦃m m' : Bytes⦄, m <+: m' → f m ≠ .error .undefined → f m' = f m

theorem Stable.const (r : Outcome ε α) : Stable fun _ => r := fun _ _ _ _ => rfl

theorem Stable.bind {f : Bytes → Outcome ε α} {g : α → Bytes → Outcome ε β} (hf : Stable f)
    (hg : ∀ a, Stable (g a)) : Stable fun m => f m >>= fun a => g a m := by
  intro m m' hm h
  have hfm : f m ≠ .error .undefined := by
    intro he
    exact h (by simp [he, Bind.bind, Except.bind])
  change f m' >>= _ = f m >>= _
  rw [hf hm hfm]
  cases ha : f m with
  | error e => rfl
  | ok a =>
    refine hg a hm ?_
    simpa [ha, Bind.bind, Except.bind] using h

theorem Stable.ite {c : Prop} [Decidable c] {f g : Bytes → Outcome ε α} (hf : Stable f)
    (hg : Stable g) : Stable fun m => if c then f m else g m := by
  intro m m' hm h
  by_cases hc : c
  · simpa only [if_pos hc] using hf hm (by simpa only [if_pos hc] using h)
  · simpa only [if_neg hc] using hg hm (by simpa only [if_neg hc] using h)

theorem suffix_mono {m m' : Bytes} (h : m <+: m') (p : Int) : suffix m p <+: suffix m' p := by
  unfold suffix
  split_ifs
  · exact List.prefix_rfl
  · exact h.drop _

theorem Stable.suffix {g : Bytes → Outcome ε α} (hg : Stable g) (p : Int) :
    Stable fun m => g (Lib.suffix m p) :=
  fun _ _ hm h => hg (suffix_mono hm p) h

theorem Stable.byteAt (p : Int) : Stable fun m => (Lib.byteAt m p : Outcome ε UInt8) := by
  have head : Stable fun s : Bytes => match s with
      | [] => (.error .undefined : Outcome ε UInt8)
      | c :: _ => .ok c := by
    intro m m' hm h
    cases m with
    | nil => exact absurd rfl h
    | cons c cs =>
      obtain ⟨t, rfl⟩ := hm
      rfl
  exact head.suffix p

theorem Stable.span (b e : Int) : Stable fun m => (Lib.span m b e : Outcome ε Bytes) := by
  intro m m' hm h
  obtain ⟨t, rfl⟩ := hm
  simp only [Lib.span, List.length_append] at h ⊢
  by_cases hle : e ≤ b
  · rw [if_pos hle, if_pos hle]
  · rw [if_neg hle] at h
    by_cases hout : b < 0 ∨ (m.length : Int) < e
    · exact absurd (if_pos hout) h
    · rw [if_neg hle, if_neg hle, if_neg hout, if_neg (by omega)]
      have hlen : (e - b).toNat ≤ (m.drop b.toNat).length := by
        simp only [List.length_drop]
        omega
      rw [List.drop_append_of_le_length (by omega), List.take_append_of_le_length hlen]

theorem Stable.drop {g : Bytes → Outcome ε α} (hg : Stable g) (n : Nat) :
    Stable fun m => g (m.drop n) :=
  fun _ _ hm h => hg (hm.drop n) h

theorem Stable.scan {σ : Type*} {f : σ → Bytes → Outcome ε α}
    (hnil : ∀ s t, f s [] ≠ .error .undefined → f s t = f s [])
    (hcons : ∀ s c, (∃ r, ∀ cs, f s (c :: cs) = r) ∨ ∃ s', ∀ cs, f s (c :: cs) = f s' cs)
    (s : σ) : Stable (f s) := by
  rintro m _ ⟨t, rfl⟩ h
  induction m generalizing s with
  | nil => exact hnil s _ h
  | cons c cs ih =>
    rw [List.cons_append]
    rcases hcons s c with ⟨r, hr⟩ | ⟨s', hs'⟩
    · rw [hr, hr]
    · rw [hs'] at h
      rw [hs', hs', ih s' h]

theorem Stable.map {β : Type*} {f : Bytes → Outcome ε α} (hf : Stable f)
    (g : Outcome ε α → Outcome ε β) (hg : g (.error .undefined) = .error .undefined) :
    Stable fun m => g (f m) := by
  intro m m' hm h
  have hfm : f m ≠ .error .undefined := fun he => h ((congrArg g he).trans hg)
  exact congrArg g (hf hm hfm)

theorem length_of_span_eq_ok {mem r : Bytes} {b e : Int}
    (h : (span mem b e : Outcome ε Bytes) = .ok r) : r.length = (e - b).toNat := by
  unfold Lib.span at h
  split_ifs at h with hle hout
  · obtain rfl := Except.ok.inj h
    rw [List.length_nil, Int.toNat_of_nonpos (by omega)]
  · obtain rfl := Except.ok.inj h
    rw [List.length_take, List.length_drop]
    omega

theorem span_of_drop {mem text : Bytes} {n m : Nat} (after : Bytes)
    (h : mem.drop n = text ++ after) (hm : n + text.length = m) :
    (span mem n m : Outcome ε Bytes) = .ok text := by
  have hlen := congrArg List.length h
  rw [List.length_drop, List.length_append] at hlen
  unfold Lib.span
  split_ifs with hle hout
  · have hnil : text = [] := List.length_eq_zero_iff.mp (by omega)
    rw [hnil]
  · omega
  · have hcount : ((m : Int) - n).toNat = text.length := by omega
    rw [Int.toNat_natCast, h, hcount, List.take_left]

theorem span_inside {mem : Bytes} {n len : Nat} (h : n + len ≤ mem.length) :
    (span mem n (n + len : Nat) : Outcome ε Bytes) = .ok ((mem.drop n).take len) := by
  apply span_of_drop ((mem.drop n).drop len) (List.take_append_drop len _).symm
  rw [List.length_take, List.length_drop, min_eq_left (Nat.le_sub_of_add_le' h)]

theorem span_outside {mem : Bytes} {n len : Nat} (hlen : 0 < len) (h : mem.length < n + len) :
    (span mem n (n + len : Nat) : Outcome ε Bytes) = .error .undefined := by
  unfold Lib.span
  rw [if_neg (by omega), if_pos (Or.inr (by exact_mod_cast h))]

def Unthrown (x : Outcome ε α) : Prop := ∀ e, x ≠ .error (.thrown e)

theorem Unthrown.ok (a : α) : Unthrown (.ok a : Outcome ε α) := fun _ => nofun

theorem Unthrown.bind {x : Outcome ε α} {g : α → Outcome ε β} (hx : Unthrown x)
    (hg : ∀ a, x = .ok a → Unthrown (g a)) : Unthrown (x >>= g) := by
  cases x with
  | error f => exact fun e h => hx e (by rw [Except.error.inj h])
  | ok a => exact hg a rfl

theorem Unthrown.byteAt (mem : Bytes) (p : Int) :
    Unthrown (Lib.byteAt mem p : Outcome ε UInt8) := by
  unfold Lib.byteAt
  split <;> exact fun _ => nofun

theorem Unthrown.span (mem : Bytes) (b e : Int) :
    Unthrown (Lib.span mem b e : Outcome ε Bytes) := by
  unfold Lib.span
  split_ifs <;> exact fun _ => nofun

end Reads

def resized (mem : Bytes) (n : Nat) : Bytes := mem.take n ++ List.replicate (n - mem.length) 0

@[simp] theorem length_resized (mem : Bytes) (n : Nat) : (resized mem n).length = n := by
  simp only [resized, List.length_append, List.length_take, List.length_replicate]
  omega

theorem resized_replicate (m n : Nat) : resized (List.replicate m 0) n = List.replicate n 0 := by
  rw [resized, List.take_replicate, List.length_replicate, List.replicate_append_replicate]
  congr 1
  omega

theorem resized_of_le {mem : Bytes} {n : Nat} (h : mem.length ≤ n) :
    resized mem n = mem ++ List.replicate (n - mem.length) 0 := by
  rw [resized, List.take_of_length_le h]

def overwrite (mem : Bytes) (pos : Nat) (src : Bytes) : Bytes :=
  mem.take pos ++ src ++ mem.drop (pos + src.length)

section Overwrite
variable {mem src : Bytes} {pos : Nat}

theorem length_overwrite (h : pos + src.length ≤ mem.length) :
    (overwrite mem pos src).length = mem.length := by
  simp only [overwrite, List.length_append, List.length_take, List.length_drop]
  omega

@[simp] theorem overwrite_zero (mem src : Bytes) :
    overwrite mem 0 src = src ++ mem.drop src.length := by
  simp [overwrite]

end Overwrite
end Warhead.Lib
