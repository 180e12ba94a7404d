import WarheadFix.Common.MessageBuffer
import WarheadFix.Shared.Utf8

/-! The byte buffer that requests are parsed from and replies are built in. -/

namespace Warhead
open Lib

/-- The exceptions of the network code, with the data that their texts are made of. -/
inductive Exn where
  | byteBuffer
  | position (add : Bool) (pos size valueSize : Nat)
  | invalidValue (type : String) (value : Bytes)
  | outOfRange
  | logicError
  | lengthError
  deriving DecidableEq, Repr

abbrev Result (α : Type) := Outcome Exn α

def addSize (a b : Nat) : Nat := (a + b) % 2 ^ 64

structure ByteBuffer where
  rpos : Nat
  wpos : Nat
  storage : Bytes
  deriving DecidableEq

namespace ByteBuffer

def new : ByteBuffer := ⟨0, 0, []⟩

/-- Reserves memory and copies into what it reserves; the size stays 0. -/
def ofBytes (buffer : Bytes) (reserve : Nat) : Result ByteBuffer :=
  if buffer.length < reserve then .error .undefined else .ok new

/-- The constructor from a message buffer takes the whole storage, not the active part. -/
def ofMessageBuffer (buffer : MessageBuffer) : ByteBuffer := ⟨0, 0, buffer.storage⟩

def size (b : ByteBuffer) : Nat := b.storage.length

def empty (b : ByteBuffer) : Bool := b.storage.isEmpty

def contents (b : ByteBuffer) : Result Bytes :=
  if b.storage = [] then .error (.thrown .byteBuffer) else .ok b.storage

def readAt (b : ByteBuffer) (valueSize pos : Nat) : Result Bytes :=
  if b.size < addSize pos valueSize then .error (.thrown (.position false pos valueSize b.size))
  else span b.storage pos (pos + valueSize : Nat)

def read (b : ByteBuffer) (valueSize : Nat) : Result (Bytes × ByteBuffer) := do
  let r ← b.readAt valueSize b.rpos
  pure (r, { b with rpos := b.rpos + valueSize })

def takeCString : Bytes → Bytes × Nat
  | [] => ([], 0)
  | c :: cs => if c = 0 then ([], 1) else (c :: (takeCString cs).1, (takeCString cs).2 + 1)

def readCString (b : ByteBuffer) (requireValidUtf8 : Bool := true) :
    Result (Bytes × ByteBuffer) :=
  let value := takeCString (b.storage.drop b.rpos)
  if requireValidUtf8 && !Utf8.isValid value.1 then
    .error (.thrown (.invalidValue "string" value.1))
  else .ok (value.1, { b with rpos := b.rpos + value.2 })

def resize (b : ByteBuffer) (newsize : Nat) : ByteBuffer :=
  ⟨0, newsize, resized b.storage newsize⟩

def clear (b : ByteBuffer) : ByteBuffer := { b with rpos := 0, wpos := 0, storage := [] }

def rfinish (b : ByteBuffer) : ByteBuffer := { b with rpos := b.wpos }

def readSkip (b : ByteBuffer) (skip : Nat) : Result ByteBuffer :=
  if b.size < addSize b.rpos skip then
    .error (.thrown (.position false b.rpos skip b.size))
  else .ok { b with rpos := addSize b.rpos skip }

def put (b : ByteBuffer) (pos : Nat) (src : Bytes) : Result ByteBuffer :=
  if b.size < addSize pos src.length ∨ src = [] then .error .aborted
  else if b.size < pos + src.length then .error .undefined
  else .ok { b with storage := overwrite b.storage pos src }

def append (b : ByteBuffer) (src : Bytes) : Result ByteBuffer :=
  if src = [] ∨ 10000000 ≤ b.size then .error .aborted
  else
    let newSize := b.wpos + src.length
    let grown := if b.size < newSize then resized b.storage newSize else b.storage
    .ok { b with wpos := newSize, storage := overwrite grown b.wpos src }

/-- `operator<<` of a string view: its characters, if any, and a terminator. -/
def appendString (b : ByteBuffer) (value : Bytes) : Result ByteBuffer := do
  let b ← if value = [] then pure b else b.append value
  b.append [0]

def appendBuffer (b other : ByteBuffer) : Result ByteBuffer :=
  if other.wpos = 0 then .ok b
  else do
    let storage ← other.contents
    let src ← span storage 0 other.wpos
    b.append src

variable {b : ByteBuffer}

theorem takeCString_fst (s : Bytes) : (takeCString s).1 = s.takeWhile (· != 0) := by
  induction s with
  | nil => rfl
  | cons c cs ih =>
    by_cases hc : c = 0
    · simp [takeCString, hc]
    · simp [takeCString, hc, ih]

theorem readCString_of_valid (h : Utf8.isValid (takeCString (b.storage.drop b.rpos)).1 = true) :
    b.readCString = .ok ((takeCString (b.storage.drop b.rpos)).1,
      { b with rpos := b.rpos + (takeCString (b.storage.drop b.rpos)).2 }) := by
  simp only [readCString, h, Bool.not_true, Bool.and_false, Bool.false_eq_true, if_false]

theorem readCString_of_invalid
    (h : Utf8.isValid (takeCString (b.storage.drop b.rpos)).1 = false) :
    b.readCString =
      .error (.thrown (.invalidValue "string" (takeCString (b.storage.drop b.rpos)).1)) := by
  simp only [readCString, h, Bool.not_false, Bool.and_true, if_true]

theorem contents_of_ne_nil (h : b.storage ≠ []) : b.contents = .ok b.storage := if_neg h

theorem append_full (h : 10000000 ≤ b.size) (src : Bytes) : b.append src = .error .aborted :=
  if_pos (Or.inr h)

theorem append_eq {src : Bytes} (hw : b.wpos ≤ b.size) (hne : src ≠ []) (hsize : b.size < 10000000) :
    b.append src = .ok ⟨b.rpos, b.wpos + src.length,
      b.storage.take b.wpos ++ src ++ b.storage.drop (b.wpos + src.length)⟩ := by
  rw [append, if_neg (not_or.mpr ⟨hne, Nat.not_le.mpr hsize⟩)]
  by_cases hgrow : b.size < b.wpos + src.length
  · have htake : (resized b.storage (b.wpos + src.length)).take b.wpos = b.storage.take b.wpos := by
      rw [resized_of_le hgrow.le, List.take_append_of_le_length hw]
    have hdrop : (resized b.storage (b.wpos + src.length)).drop (b.wpos + src.length) =
        b.storage.drop (b.wpos + src.length) := by
      rw [List.drop_eq_nil_of_le (length_resized _ _).le, List.drop_eq_nil_of_le hgrow.le]
    simp only [if_pos hgrow, overwrite, htake, hdrop]
  · simp only [if_neg hgrow, overwrite]

theorem append_at_end {src : Bytes} (hw : b.wpos = b.size) (hne : src ≠ [])
    (hsize : b.size < 10000000) :
    b.append src = .ok ⟨b.rpos, b.wpos + src.length, b.storage ++ src⟩ := by
  have htake : b.storage.take b.size = b.storage := List.take_length
  have hdrop : b.storage.drop (b.size + src.length) = [] :=
    List.drop_eq_nil_of_le (Nat.le_add_right _ _)
  rw [append_eq hw.le hne hsize, hw, htake, hdrop, List.append_nil]

theorem appendString_at_end {value : Bytes} (hw : b.wpos = b.size)
    (hsize : b.size + value.length < 10000000) :
    b.appendString value =
      .ok ⟨b.rpos, b.wpos + value.length + 1, b.storage ++ value ++ [0]⟩ := by
  by_cases hne : value = []
  · subst hne
    change b.append [0] = _
    rw [append_at_end hw (by simp) (by omega)]
    simp
  · have hfirst := append_at_end hw hne (by omega)
    have hsecond : (⟨b.rpos, b.wpos + value.length, b.storage ++ value⟩ : ByteBuffer).append [0] =
        .ok ⟨b.rpos, b.wpos + value.length + 1, b.storage ++ value ++ [0]⟩ := by
      refine append_at_end ?_ (by simp) ?_
      · simp only [size, List.length_append] at hw ⊢
        omega
      · simp only [size, List.length_append] at hsize ⊢
        omega
    simp only [appendString, if_neg hne, hfirst]
    exact hsecond

end ByteBuffer
end Warhead
