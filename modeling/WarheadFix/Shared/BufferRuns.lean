import WarheadFix.Shared.TypedValues
import WarheadFix.Lib.System

/-! Byte buffers under every sequence of their operations. The write position is meant to be
the size. Every operation and every constructor but one keeps it so; the constructor from a
message buffer takes over a storage and sets the write position to 0, and what is appended
then goes over what was there. -/

namespace Warhead
open Lib

namespace ByteBuffer

def Aligned (b : ByteBuffer) : Prop := b.rpos ≤ b.wpos ∧ b.wpos = b.size

/-- How a buffer comes to be. A moved-from buffer has an empty storage. -/
inductive Construction (ι : Type) where
  | default
  | reserve (reserve : Nat)
  | copy (right : ι)
  | move (buf : ι)
  | bytes (buffer : Bytes) (reserve : Nat)
  | messageBuffer (buffer : MessageBuffer)

/-- The operations on a buffer. `operator<<` of a type of fixed size is an append of its bytes,
`operator>>` of it a read of as many. -/
inductive Operation (ι : Type) where
  | append (src : Bytes)
  | appendString (value : Bytes)
  | appendBuffer (buffer : ι)
  | put (pos : Nat) (src : Bytes)
  | read (valueSize : Nat)
  | readCString (requireValidUtf8 : Bool)
  | readSkip (skip : Nat)
  | rfinish
  | resize (newsize : Nat)
  | clear

inductive Event (ι : Type) where
  | construct (i : ι) (how : Construction ι)
  | assign (i right : ι)
  | moveAssign (i right : ι)
  | operate (i : ι) (op : Operation ι)

/-- The buffer once a call has returned or thrown. Nothing follows a failed assertion. -/
def settled (thrown : ByteBuffer) : Result ByteBuffer → Option ByteBuffer
  | .ok b => some b
  | .error (.thrown _) => some thrown
  | .error _ => none

section Runs
variable {ι : Type} [DecidableEq ι]

abbrev Buffers (ι : Type) := ι → ByteBuffer

def moved (s : Buffers ι) (i right : ι) : Buffers ι :=
  if i = right then s else Function.update (Function.update s right new) i (s right)

def construct (s : Buffers ι) (i : ι) : Construction ι → Option (Buffers ι)
  | .default => some (Function.update s i new)
  | .reserve _ => some (Function.update s i new)
  | .copy right => some (Function.update s i (s right))
  | .move buf => some (moved s i buf)
  | .bytes buffer reserve =>
    (settled (s i) (ofBytes buffer reserve)).map (Function.update s i)
  | .messageBuffer buffer => some (Function.update s i (ofMessageBuffer buffer))

/-- What is appended to itself is read from a storage that the `resize` before the copy may have
moved. -/
def appendFrom (s : Buffers ι) (i buffer : ι) : Result ByteBuffer := do
  let b ← (s i).appendBuffer (s buffer)
  if buffer = i ∧ (s i).wpos ≠ 0 then .error .undefined else .ok b

def operate (s : Buffers ι) (i : ι) : Operation ι → Option ByteBuffer
  | .append src => settled (s i) ((s i).append src)
  | .appendString value => settled (s i) ((s i).appendString value)
  | .appendBuffer buffer => settled (s i) (appendFrom s i buffer)
  | .put pos src => settled (s i) ((s i).put pos src)
  | .read valueSize => settled (s i) (((s i).read valueSize).map Prod.snd)
  | .readCString utf8 => settled (s i).afterCString (((s i).readCString utf8).map Prod.snd)
  | .readSkip skip => settled (s i) ((s i).readSkip skip)
  | .rfinish => some (s i).rfinish
  | .resize newsize => some ((s i).resize newsize)
  | .clear => some (s i).clear

def step (s : Buffers ι) : Event ι → Option (Buffers ι)
  | .construct i how => construct s i how
  | .assign i right => some (Function.update s i (s right))
  | .moveAssign i right => some (moved s i right)
  | .operate i op => (operate s i op).map (Function.update s i)

def runs (ι : Type) [DecidableEq ι] : System (Buffers ι) (Event ι) := ⟨fun _ => new, step⟩

end Runs

section Operations
variable {b c other : ByteBuffer} {src : Bytes}

theorem settled_eq_some {thrown : ByteBuffer} {x : Result ByteBuffer}
    (h : settled thrown x = some c) : x = .ok c ∨ c = thrown := by
  cases x with
  | ok a => exact .inl (congrArg _ (Option.some.inj h))
  | error f =>
    cases f with
    | thrown e => exact .inr (Option.some.inj h).symm
    | aborted => exact absurd h (Option.some_ne_none c).symm
    | undefined => exact absurd h (Option.some_ne_none c).symm
    | diverges => exact absurd h (Option.some_ne_none c).symm

theorem Aligned.new : ByteBuffer.new.Aligned := ⟨le_rfl, rfl⟩

theorem Aligned.appended (h : b.Aligned) (src : Bytes) :
    Aligned ⟨b.rpos, b.wpos + src.length, b.storage ++ src⟩ := by
  refine ⟨h.1.trans (Nat.le_add_right _ _), ?_⟩
  rw [size, List.length_append, h.2, size]

theorem Aligned.moved_to (h : b.Aligned) {pos : Nat} (hpos : pos ≤ b.size) :
    Aligned { b with rpos := pos } := ⟨h.2.symm ▸ hpos, h.2⟩

/-! ## Appending -/

theorem Aligned.append_eq (h : b.Aligned) (hc : b.append src = .ok c) :
    c = ⟨b.rpos, b.wpos + src.length, b.storage ++ src⟩ := by
  by_cases hrefused : src = [] ∨ 10000000 ≤ b.size
  · rw [ByteBuffer.append, if_pos hrefused] at hc
    cases hc
  · obtain ⟨hne, hsize⟩ := not_or.mp hrefused
    exact (Except.ok.inj (hc.symm.trans (append_at_end h.2 hne (Nat.lt_of_not_le hsize))))

theorem Aligned.appendString_eq {value : Bytes} (h : b.Aligned)
    (hc : b.appendString value = .ok c) :
    c = ⟨b.rpos, b.wpos + (value ++ [0]).length, b.storage ++ (value ++ [0])⟩ := by
  by_cases hnil : value = []
  · subst hnil
    have hend : b.append [0] = .ok c := hc
    rw [h.append_eq hend, List.nil_append]
  · simp only [ByteBuffer.appendString, if_neg hnil] at hc
    obtain ⟨m, hm, hend⟩ := bind_eq_ok.mp hc
    have hfirst := h.append_eq hm
    have haligned : m.Aligned := hfirst ▸ h.appended value
    rw [haligned.append_eq hend, hfirst]
    simp only [List.length_append, Nat.add_assoc, List.append_assoc]

theorem Aligned.appendBuffer_eq (h : b.Aligned) (ho : other.Aligned)
    (hc : b.appendBuffer other = .ok c) :
    c = ⟨b.rpos, b.wpos + other.storage.length, b.storage ++ other.storage⟩ := by
  have hlen : other.wpos = other.storage.length := ho.2
  unfold appendBuffer at hc
  split_ifs at hc with hw
  · have hnil : other.storage = [] := List.length_eq_zero_iff.mp (hlen.symm.trans hw)
    obtain rfl := Except.ok.inj hc
    simp [hnil]
  · obtain ⟨storage, hstorage, hc⟩ := bind_eq_ok.mp hc
    obtain ⟨src, hsrc, hc⟩ := bind_eq_ok.mp hc
    have hne : other.storage ≠ [] := by
      intro hnil
      exact hw (by rw [hlen, hnil, List.length_nil])
    obtain rfl := Except.ok.inj ((contents_of_ne_nil hne).symm.trans hstorage)
    have hall : (span other.storage (0 : Nat) other.wpos : Result Bytes) = .ok other.storage := by
      refine span_of_drop [] ?_ ?_
      · rw [List.drop_zero, List.append_nil]
      · rw [Nat.zero_add, hlen]
    obtain rfl := Except.ok.inj (hall.symm.trans hsrc)
    exact h.append_eq hc

/-! ## Reading and overwriting -/

theorem Aligned.put (h : b.Aligned) {pos : Nat} (hc : b.put pos src = .ok c) : c.Aligned := by
  unfold ByteBuffer.put at hc
  split_ifs at hc with hrefused hpast
  obtain rfl := Except.ok.inj hc
  have hlen : (overwrite b.storage pos src).length = b.storage.length :=
    length_overwrite (Nat.le_of_not_lt hpast)
  refine ⟨h.1, ?_⟩
  rw [h.2, size, size, hlen]

theorem Aligned.read (h : b.Aligned) {valueSize : Nat} {r : Bytes}
    (hc : b.read valueSize = .ok (r, c)) : c.Aligned := by
  obtain ⟨bytes, hbytes, hc⟩ := bind_eq_ok.mp hc
  obtain ⟨-, rfl⟩ := Prod.mk.inj (Except.ok.inj hc)
  refine h.moved_to ?_
  have hrpos : b.rpos ≤ b.size := h.2 ▸ h.1
  unfold readAt at hbytes
  split_ifs at hbytes
  unfold Lib.span at hbytes
  split_ifs at hbytes with hnone hout
  · omega
  · simp only [size] at *
    omega

theorem length_takeCString (s : Bytes) : (takeCString s).2 ≤ s.length := by
  induction s with
  | nil => exact le_rfl
  | cons c cs ih =>
    rw [takeCString]
    split_ifs
    · exact Nat.succ_le_succ (Nat.zero_le _)
    · exact Nat.succ_le_succ ih

theorem Aligned.afterCString (h : b.Aligned) : b.afterCString.Aligned := by
  refine h.moved_to ?_
  have hrpos : b.rpos ≤ b.size := h.2 ▸ h.1
  have hread := length_takeCString (b.storage.drop b.rpos)
  rw [List.length_drop] at hread
  simp only [size] at *
  omega

theorem readCString_eq_ok {utf8 : Bool} {r : Bytes} (hc : b.readCString utf8 = .ok (r, c)) :
    c = b.afterCString := by
  simp only [ByteBuffer.readCString] at hc
  split_ifs at hc
  exact (Prod.mk.inj (Except.ok.inj hc)).2.symm

theorem Aligned.readSkip (h : b.Aligned) {skip : Nat} (hc : b.readSkip skip = .ok c) :
    c.Aligned := by
  unfold ByteBuffer.readSkip at hc
  split_ifs at hc with hpast
  obtain rfl := Except.ok.inj hc
  exact h.moved_to (Nat.le_of_not_lt hpast)

theorem Aligned.rfinish (h : b.Aligned) : b.rfinish.Aligned := ⟨le_rfl, h.2⟩

theorem Aligned.resize (b : ByteBuffer) (newsize : Nat) : (b.resize newsize).Aligned :=
  ⟨Nat.zero_le _, (length_resized b.storage newsize).symm⟩

theorem appendFrom_eq {ι : Type} [DecidableEq ι] {s : Buffers ι} {i j : ι}
    (hs : ∀ i, (s i).Aligned) (hc : appendFrom s i j = .ok c) :
    c = ⟨(s i).rpos, (s i).wpos + (s j).storage.length, (s i).storage ++ (s j).storage⟩ := by
  obtain ⟨b, hb, hc⟩ := bind_eq_ok.mp hc
  split_ifs at hc
  rw [← Except.ok.inj hc]
  exact (hs i).appendBuffer_eq (hs j) hb

theorem operate_aligned {ι : Type} [DecidableEq ι] {s : Buffers ι} {i : ι} {op : Operation ι}
    (hs : ∀ i, (s i).Aligned) (hc : operate s i op = some c) : c.Aligned := by
  have h : (s i).Aligned := hs i
  cases op with
  | append src =>
    rcases settled_eq_some hc with hc | rfl
    · exact h.append_eq hc ▸ h.appended src
    · exact h
  | appendString value =>
    rcases settled_eq_some hc with hc | rfl
    · exact h.appendString_eq hc ▸ h.appended _
    · exact h
  | appendBuffer buffer =>
    rcases settled_eq_some hc with hc | rfl
    · exact appendFrom_eq hs hc ▸ h.appended _
    · exact h
  | put pos src =>
    rcases settled_eq_some hc with hc | rfl
    · exact h.put hc
    · exact h
  | read valueSize =>
    rcases settled_eq_some hc with hc | rfl
    · obtain ⟨⟨r, c⟩, hread, rfl⟩ := map_eq_ok.mp hc
      exact h.read hread
    · exact h
  | readCString utf8 =>
    rcases settled_eq_some hc with hc | rfl
    · obtain ⟨⟨r, c⟩, hread, rfl⟩ := map_eq_ok.mp hc
      exact readCString_eq_ok hread ▸ h.afterCString
    · exact h.afterCString
  | readSkip skip =>
    rcases settled_eq_some hc with hc | rfl
    · exact h.readSkip hc
    · exact h
  | rfinish => exact Option.some.inj hc ▸ h.rfinish
  | resize newsize => exact Option.some.inj hc ▸ Aligned.resize (s i) newsize
  | clear => exact Option.some.inj hc ▸ Aligned.new

end Operations

section Invariant
variable {ι : Type} [DecidableEq ι] {s t : Buffers ι}

def Construction.Fitting : Construction ι → Prop
  | .messageBuffer buffer => buffer.storage = []
  | _ => True

def Event.Fitting : Event ι → Prop
  | .construct _ how => how.Fitting
  | _ => True

theorem aligned_ofMessageBuffer_iff {buffer : MessageBuffer} :
    (ofMessageBuffer buffer).Aligned ↔ buffer.storage = [] := by
  constructor
  · intro h
    exact List.length_eq_zero_iff.mp h.2.symm
  · intro h
    exact ⟨le_rfl, (List.length_eq_zero_iff.mpr h).symm⟩

theorem update_aligned (hs : ∀ i, (s i).Aligned) {i : ι} {b : ByteBuffer} :
    (∀ j, (Function.update s i b j).Aligned) ↔ b.Aligned := by
  rw [Function.forall_update_iff s fun _ b => b.Aligned]
  exact and_iff_left fun j _ => hs j

theorem moved_aligned (hs : ∀ i, (s i).Aligned) (i right : ι) :
    ∀ j, (moved s i right j).Aligned := by
  unfold moved
  split_ifs
  · exact hs
  · have hsource : ∀ j, (Function.update s right new j).Aligned :=
      (update_aligned hs).mpr Aligned.new
    exact (update_aligned hsource).mpr (hs right)

theorem construct_aligned_iff (hs : ∀ i, (s i).Aligned) {i : ι} {how : Construction ι}
    (ht : construct s i how = some t) : (∀ j, (t j).Aligned) ↔ how.Fitting := by
  cases how with
  | default => exact iff_of_true (Option.some.inj ht ▸ (update_aligned hs).mpr Aligned.new) trivial
  | reserve => exact iff_of_true (Option.some.inj ht ▸ (update_aligned hs).mpr Aligned.new) trivial
  | copy right =>
    exact iff_of_true (Option.some.inj ht ▸ (update_aligned hs).mpr (hs right)) trivial
  | move buf => exact iff_of_true (Option.some.inj ht ▸ moved_aligned hs i buf) trivial
  | bytes buffer reserve =>
    obtain ⟨b, hb, rfl⟩ := Option.map_eq_some_iff.mp ht
    refine iff_of_true ((update_aligned hs).mpr ?_) trivial
    rcases settled_eq_some hb with hb | rfl
    · unfold ofBytes at hb
      split_ifs at hb
      exact Except.ok.inj hb ▸ Aligned.new
    · exact hs i
  | messageBuffer buffer =>
    obtain rfl := Option.some.inj ht
    exact (update_aligned hs).trans aligned_ofMessageBuffer_iff

theorem step_aligned_iff (hs : ∀ i, (s i).Aligned) {e : Event ι}
    (ht : step s e = some t) : (∀ j, (t j).Aligned) ↔ e.Fitting := by
  cases e with
  | construct i how => exact construct_aligned_iff hs ht
  | assign i right =>
    exact iff_of_true (Option.some.inj ht ▸ (update_aligned hs).mpr (hs right)) trivial
  | moveAssign i right => exact iff_of_true (Option.some.inj ht ▸ moved_aligned hs i right) trivial
  | operate i op =>
    obtain ⟨b, hb, rfl⟩ := Option.map_eq_some_iff.mp ht
    exact iff_of_true ((update_aligned hs).mpr (operate_aligned hs hb)) trivial

/-- Every buffer is aligned, and so each append goes behind all that is there, an append of a
buffer adds all of it, and `rfinish` moves past all data. -/
structure Sound (s : Buffers ι) : Prop where
  aligned : ∀ i, (s i).rpos ≤ (s i).wpos ∧ (s i).wpos = (s i).size
  append : ∀ i src b, (s i).append src = .ok b → b.storage = (s i).storage ++ src
  appendString : ∀ i value b, (s i).appendString value = .ok b →
    b.storage = (s i).storage ++ (value ++ [0])
  appendBuffer : ∀ i j b, appendFrom s i j = .ok b →
    b.storage = (s i).storage ++ (s j).storage
  rfinish : ∀ i, (s i).rfinish.rpos = (s i).size

theorem sound_iff : Sound s ↔ ∀ i, (s i).Aligned := by
  constructor
  · exact fun h => h.aligned
  · intro h
    exact {
      aligned := h
      append := fun i src b hb => congrArg storage ((h i).append_eq hb)
      appendString := fun i value b hb => congrArg storage ((h i).appendString_eq hb)
      appendBuffer := fun i j b hb => congrArg storage (appendFrom_eq h hb)
      rfinish := fun i => (h i).2 }

/-- The buffers stay sound in every state of a run exactly as long as no buffer is made from a
message buffer that has a storage. -/
theorem representation_kept_iff (es : List (Event ι)) :
    (runs ι).Throughout Sound (runs ι).start es ↔
      (runs ι).Along (fun _ e => e.Fitting) (runs ι).start es := by
  refine System.throughout_iff_along (I := fun _ => True) (fun _ _ _ _ _ => trivial) ?_ trivial ?_
  · intro s e t _ hs ht
    exact sound_iff.trans (step_aligned_iff (sound_iff.mp hs) ht)
  · exact sound_iff.mpr fun _ => Aligned.new

end Invariant

/-- Made from a message buffer of one byte, a buffer writes the next byte over it. -/
theorem representation_lost : ¬ ∀ s, (runs Unit).Reachable s → Sound s := by
  intro h
  have hreach : (runs Unit).Reachable
      (Function.update (runs Unit).start () (ofMessageBuffer ⟨1, 0, [56]⟩)) :=
    (runs Unit).reachable_start.step (e := .construct () (.messageBuffer ⟨1, 0, [56]⟩)) rfl
  have hlost := (h _ hreach).append () [57] ⟨0, 1, [57]⟩ rfl
  exact absurd hlost (by decide)

end ByteBuffer
end Warhead
