import WarheadFix.Shared.ReadSide

/-! The growth of a message buffer in the arithmetic of `size_t`, for buffers of any size, and the
buffers that the constructors and the moves leave behind. On the read side, where no size comes near
its end, it is the growth in natural numbers (`offered_of_readSide`). -/

namespace Warhead.MessageBuffer
open Lib
variable {b t : MessageBuffer}

/-! ## Moves -/

def movedFrom : MessageBuffer := ⟨0, 0, []⟩

def moveConstruct (right : MessageBuffer) : MessageBuffer × MessageBuffer :=
  (⟨right.wpos, right.rpos, right.storage⟩, movedFrom)

theorem valid_ofSize (n : Nat) : (ofSize n).Valid := ⟨le_rfl, Nat.zero_le _⟩

namespace FreeSpace

def getRemainingSpace (b : MessageBuffer) : Nat :=
  (b.storage.length + (2 ^ 64 - b.wpos)) % 2 ^ 64

def grownSize (size : Nat) : Nat := size * 3 % 2 ^ 64 / 2

def ensureFreeSpace (b : MessageBuffer) : MessageBuffer :=
  if getRemainingSpace b = 0 then b.resize (grownSize b.storage.length) else b

def offered (b : MessageBuffer) : MessageBuffer := ensureFreeSpace b.normalize

def MakesSpace (b : MessageBuffer) : Prop :=
  0 < getRemainingSpace (offered b) ∧ (offered b).active = b.active

/-- The storage is not full of active bytes, or three times its size is a `size_t` and half of the
size is not nothing. -/
def Roomy (b : MessageBuffer) : Prop :=
  b.activeSize < b.storage.length ∨ 2 ≤ b.storage.length ∧ 3 * b.storage.length < 2 ^ 64

instance : DecidablePred Roomy := fun _ => inferInstanceAs (Decidable (_ ∨ _ ∧ _))

structure Sized (b : MessageBuffer) : Prop where
  valid : b.Valid
  size : b.storage.length < 2 ^ 64

theorem getRemainingSpace_eq (h : Sized b) : getRemainingSpace b = b.remainingSpace := by
  have hw : b.wpos ≤ b.storage.length := h.valid.2
  have hsize := h.size
  unfold getRemainingSpace remainingSpace
  omega

theorem Sized.normalize (h : Sized b) : Sized b.normalize where
  valid := valid_normalize h.valid
  size := (length_storage_normalize h.valid).trans_lt h.size

theorem ensureFreeSpace_eq (h : Sized b) (hwidth : 3 * b.storage.length < 2 ^ 64) :
    ensureFreeSpace b = b.ensureFreeSpace := by
  have hgrown : grownSize b.storage.length = b.storage.length * 3 / 2 := by
    unfold grownSize
    omega
  rw [ensureFreeSpace, getRemainingSpace_eq h, hgrown]
  rfl

theorem grownSize_lt {size : Nat} (hsize : size < 2 ^ 64) (hwrap : 2 ^ 64 ≤ 3 * size) :
    grownSize size < size := by
  have hcut : size * 3 % 2 ^ 64 ≤ size * 3 - 2 ^ 64 := by
    rw [Nat.mod_eq_sub_mod (by omega)]
    exact Nat.mod_le _ _
  unfold grownSize
  omega

theorem remainingSpace_normalize (h : b.Valid) :
    b.normalize.remainingSpace = b.storage.length - b.activeSize := by
  rw [remainingSpace, wpos_normalize, length_storage_normalize h]

theorem offered_of_space (h : Sized b) (hspace : b.activeSize < b.storage.length) :
    offered b = b.normalize := by
  have hremaining := remainingSpace_normalize h.valid
  rw [offered, ensureFreeSpace, getRemainingSpace_eq h.normalize, hremaining, if_neg (by omega)]

theorem offered_of_full (h : Sized b) (hfull : b.activeSize = b.storage.length) :
    offered b = b.normalize.resize (grownSize b.storage.length) := by
  have hremaining := remainingSpace_normalize h.valid
  rw [offered, ensureFreeSpace, getRemainingSpace_eq h.normalize, hremaining, hfull, Nat.sub_self,
    if_pos rfl, length_storage_normalize h.valid]

theorem offered_of_width (h : Sized b) (hwidth : 3 * b.storage.length < 2 ^ 64) :
    offered b = b.normalize.ensureFreeSpace :=
  ensureFreeSpace_eq h.normalize ((length_storage_normalize h.valid).symm ▸ hwidth)

theorem activeSize_le (h : b.Valid) : b.activeSize ≤ b.storage.length :=
  (Nat.sub_le _ _).trans h.2

theorem offered_of_roomy (h : Sized b) (hroomy : Roomy b) :
    Sized (offered b) ∧ 0 < (offered b).remainingSpace ∧ (offered b).active = b.active := by
  by_cases hspace : b.activeSize < b.storage.length
  · rw [offered_of_space h hspace, remainingSpace_normalize h.valid]
    exact ⟨h.normalize, Nat.sub_pos_of_lt hspace, active_normalize h.valid⟩
  · obtain ⟨htwo, hwidth⟩ := hroomy.resolve_left hspace
    have hnormal := h.normalize
    have hsame := length_storage_normalize h.valid
    have hfull : b.activeSize = b.storage.length :=
      (activeSize_le h.valid).antisymm (Nat.not_lt.mp hspace)
    refine ⟨⟨?_, ?_⟩, ?_, ?_⟩
    · rw [offered_of_width h hwidth]
      exact valid_ensureFreeSpace hnormal.valid
    · rw [offered_of_full h hfull, resize, length_resized, grownSize]
      omega
    · rw [offered_of_width h hwidth]
      exact remainingSpace_ensureFreeSpace hnormal.valid (hsame.symm ▸ htwo)
    · rw [offered_of_width h hwidth, active_ensureFreeSpace hnormal.valid,
        active_normalize h.valid]

theorem roomy_of_makesSpace (h : Sized b) (hspace : MakesSpace b) : Roomy b := by
  rcases (activeSize_le h.valid).lt_or_eq with hlt | hfull
  · exact Or.inl hlt
  · obtain ⟨hpos, hactive⟩ := hspace
    have hgrown : b.storage.length ≤ grownSize b.storage.length := by
      have hlength := congrArg List.length hactive
      rw [offered_of_full h hfull, length_active h.valid, active, List.length_take,
        List.length_drop, resize, length_resized, activeSize, rpos_normalize, wpos_normalize,
        hfull] at hlength
      omega
    have hroom : grownSize b.storage.length ≠ b.storage.length := by
      intro hsame
      have hsize := h.size
      rw [offered_of_full h hfull, getRemainingSpace, resize, length_resized, wpos_normalize,
        hfull, hsame] at hpos
      omega
    have hsize := h.size
    -- no growth of nothing and of one byte, and none past the width of a size
    rcases Nat.lt_or_ge b.storage.length 2 with hsmall | htwo
    · obtain hzero | hone : b.storage.length = 0 ∨ b.storage.length = 1 := by omega
      · rw [hzero] at hroom
        exact absurd rfl hroom
      · rw [hone] at hroom
        exact absurd rfl hroom
    · refine Or.inr ⟨htwo, Nat.lt_of_not_le fun hwrap => ?_⟩
      exact absurd (grownSize_lt hsize hwrap) (Nat.not_lt.mpr hgrown)

theorem makesSpace_iff (h : Sized b) : MakesSpace b ↔ Roomy b := by
  refine ⟨roomy_of_makesSpace h, fun hroomy => ?_⟩
  obtain ⟨hsized, hspace, hactive⟩ := offered_of_roomy h hroomy
  exact ⟨(getRemainingSpace_eq hsized).symm ▸ hspace, hactive⟩

/-! ## Read loops -/

structure Round where
  data : Bytes
  bytes : Nat

def step (b : MessageBuffer) (r : Round) : Option MessageBuffer :=
  if r.data.length ≤ getRemainingSpace (offered b) then
    match (offered b).write (ε := Empty) r.data with
    | .ok c => if r.bytes ≤ c.activeSize then some (c.readCompleted r.bytes) else none
    | .error _ => none
  else none

def loop (b : MessageBuffer) : System MessageBuffer Round := ⟨b, step⟩

theorem step_spec {r : Round} (h : Sized (offered b)) (hs : step b r = some t) :
    Sized t ∧ t.storage.length = (offered b).storage.length ∧
      t.active = ((offered b).active ++ r.data).drop r.bytes := by
  unfold step at hs
  rw [getRemainingSpace_eq h] at hs
  split_ifs at hs with hfits
  obtain ⟨c, hwrite, hvalid, hlength, hwritten⟩ := active_write (ε := Empty) h.valid hfits
  simp only [hwrite] at hs
  split_ifs at hs with hbytes
  obtain rfl := Option.some.inj hs
  refine ⟨⟨valid_readCompleted hvalid hbytes, hlength.trans_lt h.size⟩, hlength, ?_⟩
  rw [active_readCompleted, hwritten]

theorem active_step {r : Round} (h : Sized b) (hroomy : Roomy b) (hs : step b r = some t) :
    Sized t ∧ t.active = (b.active ++ r.data).drop r.bytes := by
  obtain ⟨hsized, -, hactive⟩ := offered_of_roomy h hroomy
  obtain ⟨ht, -, hafter⟩ := step_spec hsized hs
  exact ⟨ht, hactive ▸ hafter⟩

theorem throughout_makesSpace_iff (h : Sized b) (rounds : List Round) :
    (loop b).Throughout MakesSpace b rounds ↔ (loop b).Throughout Roomy b rounds :=
  System.throughout_congr (fun _ hc => makesSpace_iff hc)
    (fun _ _ _ hc hspace hs => (active_step hc (roomy_of_makesSpace hc hspace) hs).1) h

theorem makesSpace_ofSize {n : Nat} (hn : n < 2 ^ 64) : MakesSpace (ofSize n) ↔ 0 < n := by
  have hsized : Sized (ofSize n) := ⟨valid_ofSize n, by simpa [ofSize] using hn⟩
  rw [makesSpace_iff hsized]
  simp only [Roomy, activeSize, ofSize, List.length_replicate]
  omega

theorem two_le_storage {r : Round} (h : Sized b) (hwidth : 3 * b.storage.length < 2 ^ 64)
    (htwo : 2 ≤ b.storage.length) (hs : step b r = some t) : 2 ≤ t.storage.length := by
  obtain ⟨hsized, -, -⟩ := offered_of_roomy h (Or.inr ⟨htwo, hwidth⟩)
  have hgrows : b.storage.length ≤ (offered b).storage.length := by
    rw [offered_of_width h hwidth]
    exact (length_storage_normalize h.valid).symm.trans_le (length_storage_ensureFreeSpace _)
  obtain ⟨-, hlength, -⟩ := step_spec hsized hs
  exact (htwo.trans hgrows).trans_eq hlength.symm

theorem offered_of_readSide {s : ReadSide} (h : s.Inv)
    (hwidth : 3 * s.buffer.storage.length < 2 ^ 64) : offered s.buffer = s.offered :=
  offered_of_width ⟨h.valid, by omega⟩ hwidth

/-- Compaction and growth make space and keep the active bytes exactly of a buffer with room, and
do so in every round of a read loop exactly if there is room in every round. -/
theorem ensureFreeSpace_makes_space_iff (b : MessageBuffer) (h : Sized b) :
    (MakesSpace b ↔ Roomy b) ∧ ∀ rounds,
      (loop b).Throughout MakesSpace b rounds ↔ (loop b).Throughout Roomy b rounds :=
  ⟨makesSpace_iff h, throughout_makesSpace_iff h⟩

theorem ensureFreeSpace_makes_space_two : MakesSpace ⟨2, 0, [56, 61]⟩ :=
  (ensureFreeSpace_makes_space_iff ⟨2, 0, [56, 61]⟩ ⟨⟨by decide, by decide⟩, by decide⟩).1.mpr
    (by decide)

/-- A buffer that has been moved from, and one of a single byte that is active. -/
theorem ensureFreeSpace_without_space :
    Sized (moveConstruct new).2 ∧ ¬ MakesSpace (moveConstruct new).2 ∧
      Sized ⟨1, 0, [56]⟩ ∧ ¬ MakesSpace ⟨1, 0, [56]⟩ := by
  have hmoved : Sized (moveConstruct new).2 := ⟨⟨le_rfl, le_rfl⟩, by decide⟩
  have hsingle : Sized ⟨1, 0, [56]⟩ := ⟨⟨by decide, by decide⟩, by decide⟩
  refine ⟨hmoved, ?_, hsingle, ?_⟩
  · rw [makesSpace_iff hmoved]
    decide
  · rw [makesSpace_iff hsingle]
    decide

end FreeSpace
end Warhead.MessageBuffer
