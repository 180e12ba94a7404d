import WarheadFix.Shared.ByteBuffer

/-! The bounds checks of the byte buffer. Each compares a sum of two `size_t` with the size.
They are exact until the sum goes round: then a range that lies outside can pass. -/

namespace Warhead
open Lib

namespace ByteBuffer

/-- A member function as its statements run. What it has changed stays when it fails. -/
abbrev Member (α : Type) := ExceptT (Fault Exn) (StateM ByteBuffer) α

namespace Member
variable {α β : Type}

def call (m : Member α) (b : ByteBuffer) : Result α × ByteBuffer := StateT.run (ExceptT.run m) b

def ofResult (r : Result α) : Member α := ExceptT.mk (pure r)

def ASSERT (condition : Prop) [Decidable condition] : Member Unit :=
  if condition then pure () else throw .aborted

def checkRange (pos len : Nat) : Member Unit := do
  let b ← get
  if b.size < addSize pos len then throw (.thrown (.position false pos len b.size))

def advance (n : Nat) : Member Unit := modify fun b => { b with rpos := addSize b.rpos n }

def readAt (valueSize pos : Nat) : Member Bytes := do
  checkRange pos valueSize
  let b ← get
  ofResult (span b.storage pos (pos + valueSize : Nat))

def readValue (valueSize : Nat) : Member Bytes := do
  let b ← get
  let r ← readAt valueSize b.rpos
  advance valueSize
  return r

def read (len : Nat) : Member Bytes := do
  let b ← get
  checkRange b.rpos len
  let r ← ofResult (span b.storage b.rpos (b.rpos + len : Nat))
  advance len
  return r

def readSkip (skip : Nat) : Member Unit := do
  let b ← get
  checkRange b.rpos skip
  advance skip

def put (pos : Nat) (src : Bytes) : Member Unit := do
  let b ← get
  ASSERT (addSize pos src.length ≤ b.size)
  ASSERT (src ≠ [])
  let _ ← ofResult (span b.storage pos (pos + src.length : Nat))
  set { b with storage := overwrite b.storage pos src }

/-! ## Calls -/

variable {b b' : ByteBuffer}

section Bind
variable {m : Member α} {f : α → Member β}

theorem call_bind_ok {r : α} (h : m.call b = (.ok r, b')) :
    (m >>= f).call b = (f r).call b' := by
  change StateT.run (ExceptT.run m >>= ExceptT.bindCont f) b = _
  rw [StateT.run_bind, show StateT.run (ExceptT.run m) b = (.ok r, b') from h]
  rfl

theorem call_bind_error {e : Fault Exn} (h : m.call b = (.error e, b')) :
    (m >>= f).call b = (.error e, b') := by
  change StateT.run (ExceptT.run m >>= ExceptT.bindCont f) b = _
  rw [StateT.run_bind, show StateT.run (ExceptT.run m) b = (.error e, b') from h]
  rfl

end Bind

theorem call_get : (get : Member ByteBuffer).call b = (.ok b, b) := rfl

theorem call_ofResult (r : Result α) : (ofResult r).call b = (r, b) := rfl

theorem call_advance (n : Nat) :
    (advance n).call b = (.ok (), { b with rpos := addSize b.rpos n }) := rfl

theorem call_checkRange (pos len : Nat) : (checkRange pos len).call b =
    if b.size < addSize pos len then
      (.error (.thrown (.position false pos len b.size)), b)
    else (.ok (), b) := by
  rw [checkRange, call_bind_ok call_get]
  split_ifs <;> rfl

theorem call_ASSERT (condition : Prop) [Decidable condition] : (ASSERT condition).call b =
    if condition then (.ok (), b) else (.error .aborted, b) := by
  rw [ASSERT]
  split_ifs <;> rfl

theorem call_readAt (valueSize pos : Nat) :
    (readAt valueSize pos).call b = (b.readAt valueSize pos, b) := by
  have hcheck := call_checkRange (b := b) pos valueSize
  rw [readAt, ByteBuffer.readAt]
  split_ifs at hcheck ⊢ with h
  · exact call_bind_error hcheck
  · rw [call_bind_ok hcheck, call_bind_ok call_get, call_ofResult]

theorem call_readValue (valueSize : Nat) : (readValue valueSize).call b =
    match b.readAt valueSize b.rpos with
    | .ok r => (.ok r, { b with rpos := addSize b.rpos valueSize })
    | .error f => (.error f, b) := by
  have hread := call_readAt (b := b) valueSize b.rpos
  rw [readValue, call_bind_ok call_get]
  cases hr : b.readAt valueSize b.rpos with
  | ok r => rw [call_bind_ok (hread.trans (by rw [hr])), call_bind_ok (call_advance _)]; rfl
  | error f => exact call_bind_error (hread.trans (by rw [hr]))

theorem call_read (len : Nat) : (read len).call b = (readValue len).call b := by
  have hcheck := call_checkRange (b := b) b.rpos len
  rw [call_readValue, read, call_bind_ok call_get, ByteBuffer.readAt]
  split_ifs at hcheck ⊢ with h
  · exact call_bind_error hcheck
  · rw [call_bind_ok hcheck]
    cases hr : (span b.storage b.rpos (b.rpos + len : Nat) : Result Bytes) with
    | ok r => rw [call_bind_ok (call_ofResult _), call_bind_ok (call_advance _)]; rfl
    | error f => exact call_bind_error (call_ofResult _)

theorem call_readSkip (skip : Nat) : (readSkip skip).call b =
    match b.readSkip skip with
    | .ok b' => (.ok (), b')
    | .error f => (.error f, b) := by
  have hcheck := call_checkRange (b := b) b.rpos skip
  rw [readSkip, call_bind_ok call_get, ByteBuffer.readSkip]
  split_ifs at hcheck ⊢ with h
  · exact call_bind_error hcheck
  · exact (call_bind_ok hcheck).trans (call_advance skip)

theorem call_put (pos : Nat) (src : Bytes) : (put pos src).call b =
    match b.put pos src with
    | .ok b' => (.ok (), b')
    | .error f => (.error f, b) := by
  have hrange := call_ASSERT (b := b) (addSize pos src.length ≤ b.size)
  have hcount := call_ASSERT (b := b) (src ≠ [])
  rw [put, call_bind_ok call_get, ByteBuffer.put]
  by_cases hsum : addSize pos src.length ≤ b.size
  swap
  · rw [if_neg hsum] at hrange
    rw [call_bind_error hrange, if_pos (Or.inl (Nat.not_le.mp hsum))]
  rw [if_pos hsum] at hrange
  rw [call_bind_ok hrange]
  by_cases hsrc : src = []
  · rw [if_neg (not_not_intro hsrc)] at hcount
    rw [call_bind_error hcount, if_pos (Or.inr hsrc)]
  rw [if_pos hsrc] at hcount
  rw [call_bind_ok hcount, if_neg (not_or.mpr ⟨Nat.not_lt.mpr hsum, hsrc⟩)]
  by_cases hout : b.size < pos + src.length
  · rw [if_pos hout]
    have hspan : (span b.storage pos (pos + src.length : Nat) : Result Bytes) = .error .undefined :=
      span_outside (List.length_pos_iff.mpr hsrc) hout
    rw [hspan]
    exact call_bind_error (call_ofResult _)
  · rw [if_neg hout]
    rw [span_inside (Nat.not_lt.mp hout)]
    exact call_bind_ok (call_ofResult _)

end Member

structure Addressable (b : ByteBuffer) : Prop where
  rpos_lt : b.rpos < 2 ^ 64
  size_lt : b.size < 2 ^ 64

inductive Access where
  | readAt (valueSize pos : UInt64)
  | readValue (valueSize : UInt64)
  | read (len : UInt64)
  | readSkip (skip : UInt64)
  | put (pos : UInt64) (src : Bytes) (bounded : src.length < 2 ^ 64)

namespace Access
variable {a : Access} {b : ByteBuffer}

def member : Access → Member Bytes
  | readAt valueSize pos => Member.readAt valueSize.toNat pos.toNat
  | readValue valueSize => Member.readValue valueSize.toNat
  | read len => Member.read len.toNat
  | readSkip skip => do Member.readSkip skip.toNat; return []
  | put pos src _ => do Member.put pos.toNat src; return []

def run (a : Access) (b : ByteBuffer) : Result Bytes × ByteBuffer := a.member.call b

def position : Access → ByteBuffer → Nat
  | readAt _ pos, _ => pos.toNat
  | readValue _, b => b.rpos
  | read _, b => b.rpos
  | readSkip _, b => b.rpos
  | put pos _ _, _ => pos.toNat

def length : Access → Nat
  | readAt valueSize _ => valueSize.toNat
  | readValue valueSize => valueSize.toNat
  | read len => len.toNat
  | readSkip skip => skip.toNat
  | put _ src _ => src.length

/-- An operation succeeds only inside the storage and never goes back; else it throws or aborts,
and the buffer is as before. -/
structure Checked (a : Access) (b : ByteBuffer) : Prop where
  inside : ∀ r, (a.run b).1 = .ok r → a.position b + a.length ≤ b.size
  forward : ∀ r, (a.run b).1 = .ok r → b.rpos ≤ (a.run b).2.rpos
  refused : ∀ f, (a.run b).1 = .error f → (∃ e, f = .thrown e) ∨ f = .aborted
  unchanged : ∀ f, (a.run b).1 = .error f → (a.run b).2 = b

/-- The sum stays below `2 ^ 64`, or what is left of it is still beyond the size. -/
def NotWrapped (a : Access) (b : ByteBuffer) : Prop :=
  a.position b + a.length < 2 ^ 64 ∨ b.size < addSize (a.position b) a.length

end Access

section Addressable
variable {a : Access} {b : ByteBuffer}

theorem Addressable.position_lt (h : Addressable b) : a.position b < 2 ^ 64 := by
  cases a with
  | readAt valueSize pos => exact pos.toNat_lt
  | put pos src bounded => exact pos.toNat_lt
  | _ => exact h.rpos_lt

theorem Addressable.addSize_of_inside (h : Addressable b) (hin : a.position b + a.length ≤ b.size) :
    addSize (a.position b) a.length = a.position b + a.length :=
  Nat.mod_eq_of_lt (hin.trans_lt h.size_lt)

theorem Addressable.length_pos (h : Addressable b) (hsum : addSize (a.position b) a.length ≤ b.size)
    (hout : b.size < a.position b + a.length) : 0 < a.length := by
  by_contra hzero
  rw [Nat.eq_zero_of_not_pos hzero, Nat.add_zero] at hout
  rw [Nat.eq_zero_of_not_pos hzero, addSize, Nat.add_zero, Nat.mod_eq_of_lt h.position_lt] at hsum
  exact absurd hout (Nat.not_lt.mpr hsum)

end Addressable

/-! ## The outcomes of one operation -/

theorem readAt_of_drop {b : ByteBuffer} {pos n : Nat} {bytes after : Bytes}
    (hsize : b.size < 2 ^ 64) (hpos : pos ≤ b.size) (h : b.storage.drop pos = bytes ++ after)
    (hn : bytes.length = n) : b.readAt n pos = .ok bytes := by
  have hlength := congrArg List.length h
  rw [List.length_drop, List.length_append] at hlength
  have hin : pos + n ≤ b.size := by
    rw [← hn]
    change b.size - pos = _ at hlength
    omega
  have hsum : addSize pos n = pos + n := Nat.mod_eq_of_lt (hin.trans_lt hsize)
  rw [ByteBuffer.readAt, hsum, if_neg (Nat.not_lt.mpr hin)]
  exact span_of_drop after h (congrArg (pos + ·) hn)

namespace Access
variable {a : Access} {b : ByteBuffer}

theorem run_readAt (valueSize pos : UInt64) :
    (readAt valueSize pos).run b = (b.readAt valueSize.toNat pos.toNat, b) :=
  Member.call_readAt _ _

theorem run_readValue (valueSize : UInt64) : (readValue valueSize).run b =
    match b.readAt valueSize.toNat b.rpos with
    | .ok r => (.ok r, { b with rpos := addSize b.rpos valueSize.toNat })
    | .error f => (.error f, b) := Member.call_readValue _

theorem run_read (len : UInt64) : (read len).run b = (readValue len).run b := Member.call_read _

theorem run_readSkip (skip : UInt64) : (readSkip skip).run b =
    match b.readSkip skip.toNat with
    | .ok b' => (.ok [], b')
    | .error f => (.error f, b) := by
  have hskip := Member.call_readSkip (b := b) skip.toNat
  cases hr : b.readSkip skip.toNat with
  | ok b' => exact Member.call_bind_ok (hskip.trans (by rw [hr]))
  | error f => exact Member.call_bind_error (hskip.trans (by rw [hr]))

theorem run_put (pos : UInt64) (src : Bytes) (bounded : src.length < 2 ^ 64) :
    (put pos src bounded).run b =
      match b.put pos.toNat src with
      | .ok b' => (.ok [], b')
      | .error f => (.error f, b) := by
  have hput := Member.call_put (b := b) pos.toNat src
  cases hr : b.put pos.toNat src with
  | ok b' => exact Member.call_bind_ok (hput.trans (by rw [hr]))
  | error f => exact Member.call_bind_error (hput.trans (by rw [hr]))

theorem readAt_refused {valueSize pos : Nat} (h : b.size < addSize pos valueSize) :
    b.readAt valueSize pos = .error (.thrown (.position false pos valueSize b.size)) := if_pos h

theorem readAt_inside {valueSize pos : Nat} (h : addSize pos valueSize ≤ b.size)
    (hin : pos + valueSize ≤ b.size) :
    b.readAt valueSize pos = .ok ((b.storage.drop pos).take valueSize) :=
  (if_neg (Nat.not_lt.mpr h)).trans (span_inside hin)

theorem readAt_outside {valueSize pos : Nat} (h : addSize pos valueSize ≤ b.size)
    (hlen : 0 < valueSize) (hout : b.size < pos + valueSize) :
    b.readAt valueSize pos = .error .undefined :=
  (if_neg (Nat.not_lt.mpr h)).trans (span_outside hlen hout)

theorem put_refused {pos : Nat} {src : Bytes} (h : b.size < addSize pos src.length) :
    b.put pos src = .error .aborted := if_pos (Or.inl h)

theorem run_refused (h : b.size < addSize (a.position b) a.length) :
    (∃ e, a.run b = (.error (.thrown e), b)) ∨ a.run b = (.error .aborted, b) := by
  cases a with
  | readAt valueSize pos =>
    left
    rw [run_readAt, readAt_refused (by exact h)]
    exact ⟨_, rfl⟩
  | readValue valueSize =>
    left
    rw [run_readValue, readAt_refused (by exact h)]
    exact ⟨_, rfl⟩
  | read len =>
    left
    rw [run_read, run_readValue, readAt_refused (by exact h)]
    exact ⟨_, rfl⟩
  | readSkip skip =>
    left
    rw [run_readSkip, ByteBuffer.readSkip, if_pos (by exact h)]
    exact ⟨_, rfl⟩
  | put pos src bounded =>
    right
    rw [run_put, put_refused (by exact h)]

theorem run_inside (hb : Addressable b) (hin : a.position b + a.length ≤ b.size) :
    (∃ r, (a.run b).1 = .ok r ∧ b.rpos ≤ (a.run b).2.rpos) ∨ a.run b = (.error .aborted, b) := by
  have hsum := hb.addSize_of_inside hin
  have hle : addSize (a.position b) a.length ≤ b.size := hsum.trans_le hin
  have hforward : a.position b ≤ addSize (a.position b) a.length :=
    (Nat.le_add_right _ _).trans_eq hsum.symm
  cases a with
  | readAt valueSize pos =>
    left
    rw [run_readAt, readAt_inside (by exact hle) (by exact hin)]
    exact ⟨_, rfl, le_rfl⟩
  | readValue valueSize =>
    left
    rw [run_readValue, readAt_inside (by exact hle) (by exact hin)]
    exact ⟨_, rfl, hforward⟩
  | read len =>
    left
    rw [run_read, run_readValue, readAt_inside (by exact hle) (by exact hin)]
    exact ⟨_, rfl, hforward⟩
  | readSkip skip =>
    left
    rw [run_readSkip, ByteBuffer.readSkip, if_neg (by exact Nat.not_lt.mpr hle)]
    exact ⟨_, rfl, hforward⟩
  | put pos src bounded =>
    by_cases hsrc : src = []
    · right
      rw [run_put, ByteBuffer.put, if_pos (Or.inr hsrc)]
    · left
      rw [run_put, ByteBuffer.put, if_neg (not_or.mpr ⟨by exact Nat.not_lt.mpr hle, hsrc⟩),
        if_neg (by exact Nat.not_lt.mpr hin)]
      exact ⟨_, rfl, le_rfl⟩

theorem run_outside (hb : Addressable b) (hle : addSize (a.position b) a.length ≤ b.size)
    (hout : b.size < a.position b + a.length) :
    (a.run b).1 = .error .undefined ∨ ∃ r, (a.run b).1 = .ok r := by
  have hlen := hb.length_pos hle hout
  cases a with
  | readAt valueSize pos =>
    left
    rw [run_readAt, readAt_outside (by exact hle) (by exact hlen) (by exact hout)]
  | readValue valueSize =>
    left
    rw [run_readValue, readAt_outside (by exact hle) (by exact hlen) (by exact hout)]
  | read len =>
    left
    rw [run_read, run_readValue, readAt_outside (by exact hle) (by exact hlen) (by exact hout)]
  | readSkip skip =>
    right
    rw [run_readSkip, ByteBuffer.readSkip, if_neg (by exact Nat.not_lt.mpr hle)]
    exact ⟨_, rfl⟩
  | put pos src bounded =>
    left
    have hsrc : src ≠ [] := List.ne_nil_of_length_pos hlen
    rw [run_put, ByteBuffer.put, if_neg (not_or.mpr ⟨by exact Nat.not_lt.mpr hle, hsrc⟩),
      if_pos (by exact hout)]

theorem Checked.of_thrown {e : Exn} (h : a.run b = (.error (.thrown e), b)) : a.Checked b where
  inside _ hr := absurd ((congrArg Prod.fst h).symm.trans hr) nofun
  forward _ hr := absurd ((congrArg Prod.fst h).symm.trans hr) nofun
  refused _ hf := .inl ⟨e, Except.error.inj (hf.symm.trans (congrArg Prod.fst h))⟩
  unchanged _ _ := congrArg Prod.snd h

theorem Checked.of_aborted (h : a.run b = (.error .aborted, b)) : a.Checked b where
  inside _ hr := absurd ((congrArg Prod.fst h).symm.trans hr) nofun
  forward _ hr := absurd ((congrArg Prod.fst h).symm.trans hr) nofun
  refused _ hf := .inr (Except.error.inj (hf.symm.trans (congrArg Prod.fst h)))
  unchanged _ _ := congrArg Prod.snd h

/-- The check of an operation is exact exactly if the sum that it compares has not gone round to
something within the size. -/
theorem checked_iff (hb : Addressable b) : a.Checked b ↔ a.NotWrapped b := by
  constructor
  · intro h
    by_contra hwrapped
    obtain ⟨hover, hle⟩ := not_or.mp hwrapped
    have hout : b.size < a.position b + a.length := hb.size_lt.trans_le (Nat.not_lt.mp hover)
    rcases run_outside hb (Nat.not_lt.mp hle) hout with hundefined | ⟨r, hr⟩
    · rcases h.refused _ hundefined with ⟨e, he⟩ | habort
      · cases he
      · cases habort
    · exact absurd (h.inside r hr) (Nat.not_le.mpr hout)
  · intro h
    by_cases hover : b.size < addSize (a.position b) a.length
    · rcases run_refused hover with ⟨e, hthrown⟩ | haborted
      · exact .of_thrown hthrown
      · exact .of_aborted haborted
    · have hsum := Nat.mod_eq_of_lt (h.resolve_right hover)
      have hin : a.position b + a.length ≤ b.size := hsum.symm.trans_le (Nat.not_lt.mp hover)
      rcases run_inside hb hin with ⟨r, hr, hforward⟩ | haborted
      · exact ⟨fun _ _ => hin, fun _ _ => hforward, fun f hf => absurd (hr.symm.trans hf) nofun,
          fun f hf => absurd (hr.symm.trans hf) nofun⟩
      · exact .of_aborted haborted

/-- Skipping all but one of the `size_t` goes one byte back. -/
theorem readSkip_backwards :
    ¬ ∀ b : ByteBuffer, Addressable b → ∀ a : Access, a.Checked b := by
  intro h
  have hb : Addressable ⟨1, 1, [0]⟩ := ⟨by decide, by decide⟩
  have hrun : (readSkip 18446744073709551615).run ⟨1, 1, [0]⟩ = (.ok [], ⟨0, 1, [0]⟩) :=
    run_readSkip 18446744073709551615
  have hback := (h ⟨1, 1, [0]⟩ hb (readSkip 18446744073709551615)).forward [] (by rw [hrun])
  rw [hrun] at hback
  exact absurd hback (by decide)

theorem checked_iff_readSkip :
    (readSkip 1).Checked ⟨0, 1, [0]⟩ ↔ (readSkip 1).NotWrapped ⟨0, 1, [0]⟩ :=
  checked_iff ⟨by decide, by decide⟩

end Access
end ByteBuffer
end Warhead
