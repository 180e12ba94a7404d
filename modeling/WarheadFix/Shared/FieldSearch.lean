import WarheadFix.Shared.FieldWalk

/-! The searches of the reader. A search from a field ends if the fields after it line up with
the CheckSum field, or if the tag is found before they go astray. -/

namespace Warhead.Hffix
open Lib

variable {mem : Bytes} {r : MessageReader} {tag : Int} {i j last : ConstIterator}

def AtEnd (r : MessageReader) (i : ConstIterator) : Prop := i.buffer = r.end_.buffer

/-- From this field on the bytes are fields, one of which begins where the CheckSum does. -/
inductive LinesUp (mem : Bytes) (r : MessageReader) : ConstIterator → Prop where
  | last {i : ConstIterator} (hend : AtEnd r i) : LinesUp mem r i
  | field {i j : ConstIterator}
      (hfield : FieldAt mem r.messageEnd (i.current.value.end_ + 1) j) (hrest : LinesUp mem r j) :
      LinesUp mem r i

inductive FirstAt (mem : Bytes) (r : MessageReader) (tag : Int) :
    ConstIterator → ConstIterator → Prop where
  | here {i : ConstIterator} (hend : ¬AtEnd r i) (htag : i.current.tag = tag) :
      FirstAt mem r tag i i
  | later {i j k : ConstIterator} (hend : ¬AtEnd r i) (htag : i.current.tag ≠ tag)
      (hfield : FieldAt mem r.messageEnd (i.current.value.end_ + 1) j)
      (hrest : FirstAt mem r tag j k) : FirstAt mem r tag i k

def Found (tag : Int) (last i : ConstIterator) : Prop :=
  i.buffer = last.buffer ∨ i.current.tag = tag

instance : DecidablePred (Found tag last) := fun _ => instDecidableOr

/-! ## The loop -/

theorem increment_keyed (mem : Bytes) (r : MessageReader) :
    Keyed (increment mem r) (fun i => i.current.value.end_ + 1)
      ((Finset.range mem.length).image fun n : ℕ => (n : ℤ)) where
  congr i j h := by
    have hend : i.current.value.end_ = j.current.value.end_ := add_right_cancel h
    unfold increment
    rw [hend]
  mem i j h := by
    obtain ⟨⟨t, n, c⟩, htag, -⟩ := bind_eq_ok.mp h
    obtain ⟨ts, rest, htext, -⟩ := scanTag_ok htag
    have hne : ts ++ c :: rest ≠ [] := List.append_ne_nil_of_right_ne_nil _ (List.cons_ne_nil _ _)
    obtain ⟨m, hm⟩ := Int.eq_ofNat_of_zero_le (nonneg_of_suffix htext hne)
    refine Finset.mem_image.mpr ⟨m, Finset.mem_range.mpr ?_, hm.symm⟩
    rw [hm, suffix_natCast] at htext
    by_contra hlong
    rw [List.drop_eq_nil_of_le (not_lt.mp hlong)] at htext
    exact hne htext.symm

theorem findIf_eq_seek (fuel : ℕ) (i : ConstIterator) :
    findIf mem r tag last fuel i = seek (increment mem r) (Found tag last) fuel i := by
  induction fuel generalizing i with
  | zero => rfl
  | succ fuel ih =>
    unfold findIf seek
    by_cases h : Found tag last i
    · rw [if_pos h]
      exact if_pos h
    · rw [if_neg h]
      refine (if_neg h).trans ?_
      apply bind_congr
      exact ih

theorem findIf_eq_ok_iff (hsize : r.bufferSize = mem.length) :
    findIf mem r tag last (r.bufferSize + 2) i = .ok j ↔
      Found tag last j ∧ ∃ n, Reach (increment mem r) (Found tag last) n i j := by
  have hcard : ((Finset.range mem.length).image fun n : ℕ => (n : ℤ)).card ≤ mem.length := by
    have h := Finset.card_image_le (s := Finset.range mem.length) (f := fun n : ℕ => (n : ℤ))
    rwa [Finset.card_range] at h
  rw [findIf_eq_seek, hsize]
  exact (increment_keyed mem r).seek_eq_ok_iff (by omega)

def OnWay (mem : Bytes) (r : MessageReader) (i : ConstIterator) : Prop :=
  ∃ n, Reach (increment mem r) (AtEnd r) n r.begin_ i

theorem OnWay.step (h : OnWay mem r i) (hend : ¬AtEnd r i) (hj : increment mem r i = .ok j) :
    OnWay mem r j := by
  obtain ⟨n, hn⟩ := h
  exact ⟨n + 1, hn.trans ⟨hend, j, hj, rfl⟩⟩

section Search
variable (hsize : r.bufferSize = mem.length)
include hsize

theorem findWithHint_of_ends (tag : Int) (hway : OnWay mem r i)
    (hends : Ends (increment mem r) (AtEnd r) i) :
    ∃ o, findWithHint mem r tag i = .ok o ∧ ∀ j, o = some j →
      OnWay mem r j ∧ Ends (increment mem r) (AtEnd r) j ∧ ¬AtEnd r j := by
  obtain ⟨n, e, he, hatEnd⟩ := hends
  obtain ⟨p, hp⟩ := hway
  obtain ⟨k, m, j, hk, hj, hij, hje⟩ := he.exists_first (Found tag r.end_) (.inl hatEnd)
  have hfirst := (findIf_eq_ok_iff hsize).mpr ⟨hj, k, hk⟩
  unfold findWithHint
  rw [hfirst]
  simp only [Bind.bind, Except.bind]
  by_cases hend : j.buffer = r.end_.buffer
  · -- The search begins again with the first field, up to the hint.
    rw [if_neg (not_not.mpr hend)]
    obtain ⟨k', m', j', hk', hj', hbj', hj'i⟩ := hp.exists_first (Found tag i) (.inl rfl)
    have hsecond := (findIf_eq_ok_iff hsize).mpr ⟨hj', k', hk'⟩
    rw [hsecond]
    simp only []
    by_cases hback : j'.buffer = i.buffer
    · rw [if_neg (not_not.mpr hback)]
      exact ⟨none, rfl, fun _ h => by cases h⟩
    · rw [if_pos hback]
      refine ⟨some j', rfl, ?_⟩
      intro x hx
      cases hx
      refine ⟨⟨k', hbj'⟩, ⟨m' + n, e, hj'i.trans he, hatEnd⟩, ?_⟩
      cases m' with
      | zero => exact absurd (congrArg ConstIterator.buffer (show j' = i from hj'i)) hback
      | succ m' => exact hj'i.1
  · rw [if_pos hend]
    refine ⟨some j, rfl, ?_⟩
    intro x hx
    cases hx
    exact ⟨⟨p + k, hp.trans hij⟩, ⟨m, e, hje, hatEnd⟩, hend⟩

end Search

/-! ## The same in terms of the bytes -/

section Bytes
variable (hsoh : (byteAt mem (r.messageEnd - 1) : Result UInt8) = .ok SOH)
include hsoh

theorem linesUp_iff : LinesUp mem r i ↔ Ends (increment mem r) (AtEnd r) i := by
  constructor
  · intro h
    induction h with
    | last hend => exact ⟨0, _, rfl, hend⟩
    | @field i j hfield _ ih =>
      by_cases hend : AtEnd r i
      · exact ⟨0, i, rfl, hend⟩
      · have hstep : Reach (increment mem r) (AtEnd r) 1 i j :=
          ⟨hend, j, increment_of_fieldAt hfield, rfl⟩
        exact ih.of_reach hstep
  · rintro ⟨n, e, he, hend⟩
    induction n generalizing i with
    | zero =>
      rw [show i = e from he]
      exact .last hend
    | succ n ih =>
      obtain ⟨-, j, hj, hje⟩ := he
      exact .field (fieldAt_of_increment hsoh hj) (ih hje)

theorem firstAt_iff : FirstAt mem r tag i j ↔
    (¬AtEnd r j ∧ j.current.tag = tag) ∧
      ∃ n, Reach (increment mem r) (Found tag r.end_) n i j := by
  constructor
  · intro h
    induction h with
    | here hend htag => exact ⟨⟨hend, htag⟩, 0, rfl⟩
    | later hend htag hfield _ ih =>
      obtain ⟨hj, n, hn⟩ := ih
      exact ⟨hj, n + 1, not_or.mpr ⟨hend, htag⟩, _, increment_of_fieldAt hfield, hn⟩
  · rintro ⟨⟨hend, htag⟩, n, hn⟩
    induction n generalizing i with
    | zero =>
      rw [show i = j from hn]
      exact .here hend htag
    | succ n ih =>
      obtain ⟨hi, k, hk, hkj⟩ := hn
      obtain ⟨hiend, hitag⟩ := not_or.mp hi
      exact .later hiend hitag (fieldAt_of_increment hsoh hk) (ih hkj)

theorem findWithHint_of_not_linesUp (hsize : r.bufferSize = mem.length) (tag : Int)
    (hway : OnWay mem r i) (hnot : ¬LinesUp mem r r.begin_) {o : Option ConstIterator} :
    findWithHint mem r tag i = .ok o ↔ ∃ j, o = some j ∧ FirstAt mem r tag i j := by
  rw [linesUp_iff hsoh] at hnot
  constructor
  · intro h
    obtain ⟨j, hj, h⟩ := bind_eq_ok.mp h
    obtain ⟨hfound, n, hn⟩ := (findIf_eq_ok_iff hsize).mp hj
    by_cases hend : AtEnd r j
    · have hends : Ends (increment mem r) (AtEnd r) i := ⟨n, j, hn.mono fun _ => .inl, hend⟩
      obtain ⟨m, hm⟩ := hway
      exact absurd (hends.of_reach hm) hnot
    · have hsome : (Except.ok (some j) : Result (Option ConstIterator)) = .ok o :=
        (if_pos (show j.buffer ≠ r.end_.buffer from hend)).symm.trans h
      cases hsome
      exact ⟨j, rfl, (firstAt_iff hsoh).mpr ⟨⟨hend, hfound.resolve_left hend⟩, n, hn⟩⟩
  · rintro ⟨j, rfl, hfirst⟩
    obtain ⟨⟨hend, htag⟩, n, hn⟩ := (firstAt_iff hsoh).mp hfirst
    unfold findWithHint
    rw [(findIf_eq_ok_iff hsize).mpr ⟨.inr htag, n, hn⟩]
    exact if_pos hend

theorem OnWay.of_firstAt (hway : OnWay mem r i) (h : FirstAt mem r tag i j) : OnWay mem r j := by
  obtain ⟨m, hm⟩ := hway
  obtain ⟨-, n, hn⟩ := (firstAt_iff hsoh).mp h
  exact ⟨m + n, hm.trans (hn.mono fun _ => .inl)⟩

theorem FirstAt.not_atEnd (h : FirstAt mem r tag i j) : ¬AtEnd r j :=
  ((firstAt_iff hsoh).mp h).1.1

end Bytes
end Warhead.Hffix
