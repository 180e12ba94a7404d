import WarheadFix.Shared.ByteBuffer
import WarheadFix.Lib.LittleEndian

/-! The typed operators of the byte buffer. What `operator<<` has written is read back by
`operator>>`, value for value; a type of fixed size is as many bytes, the lowest first, and a
string ends at its terminator. -/

namespace Warhead
open Lib

inductive Scalar where
  | bool
  | uint8
  | uint16
  | uint32
  | uint64
  | int8
  | int16
  | int32
  | int64
  deriving DecidableEq, Repr

namespace Scalar

abbrev carrier : Scalar → Type
  | bool => Bool
  | uint8 => UInt8
  | uint16 => UInt16
  | uint32 => UInt32
  | uint64 => UInt64
  | int8 => Int8
  | int16 => Int16
  | int32 => Int32
  | int64 => Int64

/-- Written as `uint8`, 1 or 0, and read as a `char` that is greater than 0. -/
def fixedBool : Fixed Bool where
  size := 1
  bits value := if value then 1 else 0
  ofBits n := decide (0 < (UInt8.ofNat n).toInt8)
  size_pos := Nat.one_pos
  bits_lt value := by cases value <;> decide
  ofBits_bits value := by cases value <;> decide

def fixedUInt8 : Fixed UInt8 :=
  ⟨1, UInt8.toNat, UInt8.ofNat, by decide, UInt8.toNat_lt, fun _ => UInt8.ofNat_toNat⟩

def fixedUInt16 : Fixed UInt16 :=
  ⟨2, UInt16.toNat, UInt16.ofNat, by decide, UInt16.toNat_lt, fun _ => UInt16.ofNat_toNat⟩

def fixedUInt32 : Fixed UInt32 :=
  ⟨4, UInt32.toNat, UInt32.ofNat, by decide, UInt32.toNat_lt, fun _ => UInt32.ofNat_toNat⟩

def fixedUInt64 : Fixed UInt64 :=
  ⟨8, UInt64.toNat, UInt64.ofNat, by decide, UInt64.toNat_lt, fun _ => UInt64.ofNat_toNat⟩

def signed {α β : Type} (T : Fixed α) (toUnsigned : β → α) (toSigned : α → β)
    (h : ∀ v, toSigned (toUnsigned v) = v) : Fixed β where
  size := T.size
  bits v := T.bits (toUnsigned v)
  ofBits n := toSigned (T.ofBits n)
  size_pos := T.size_pos
  bits_lt v := T.bits_lt (toUnsigned v)
  ofBits_bits v := (congrArg toSigned (T.ofBits_bits (toUnsigned v))).trans (h v)

def fixedInt8 : Fixed Int8 := signed fixedUInt8 Int8.toUInt8 UInt8.toInt8 Int8.toInt8_toUInt8

def fixedInt16 : Fixed Int16 :=
  signed fixedUInt16 Int16.toUInt16 UInt16.toInt16 Int16.toInt16_toUInt16

def fixedInt32 : Fixed Int32 :=
  signed fixedUInt32 Int32.toUInt32 UInt32.toInt32 Int32.toInt32_toUInt32

def fixedInt64 : Fixed Int64 :=
  signed fixedUInt64 Int64.toUInt64 UInt64.toInt64 Int64.toInt64_toUInt64

def fixed : (k : Scalar) → Fixed k.carrier
  | bool => fixedBool
  | uint8 => fixedUInt8
  | uint16 => fixedUInt16
  | uint32 => fixedUInt32
  | uint64 => fixedUInt64
  | int8 => fixedInt8
  | int16 => fixedInt16
  | int32 => fixedInt32
  | int64 => fixedInt64

end Scalar

inductive ValueType where
  | scalar (k : Scalar)
  | string
  deriving DecidableEq, Repr

inductive Value where
  | scalar (k : Scalar) (v : k.carrier)
  | string (text : Bytes)

namespace Value

def type : Value → ValueType
  | scalar k _ => .scalar k
  | string _ => .string

def encoded : Value → Bytes
  | scalar k v => k.fixed.toBytes v
  | string text => text ++ [0]

def Readable : Value → Prop
  | scalar _ _ => True
  | string text => 0 ∉ text ∧ Utf8.isValid text = true

instance : DecidablePred Readable
  | scalar _ _ => inferInstanceAs (Decidable True)
  | string _ => inferInstanceAs (Decidable (_ ∧ _))

def encodedAll (values : List Value) : Bytes := (values.map encoded).flatten

@[simp] theorem encodedAll_cons (v : Value) (vs : List Value) :
    encodedAll (v :: vs) = v.encoded ++ encodedAll vs := rfl

end Value

namespace ByteBuffer

def insert (b : ByteBuffer) : Value → Result ByteBuffer
  | .scalar k v => b.append (k.fixed.toBytes v)
  | .string text => b.appendString text

def insertAll (b : ByteBuffer) : List Value → Result ByteBuffer
  | [] => .ok b
  | v :: vs => do insertAll (← b.insert v) vs

def afterCString (b : ByteBuffer) : ByteBuffer :=
  { b with rpos := b.rpos + (takeCString (b.storage.drop b.rpos)).2 }

/-- `operator>>`: the buffer after it and the value or the exception. A type of fixed size
throws before the position moves, a string after it has been read. -/
def extract (b : ByteBuffer) : ValueType → ByteBuffer × Result Value
  | .scalar k =>
    match b.read k.fixed.size with
    | .ok (bytes, after) => (after, .ok (.scalar k (k.fixed.ofBytes bytes)))
    | .error f => (b, .error f)
  | .string => (b.afterCString, b.readCString.map fun r => .string r.1)

def extractAll (b : ByteBuffer) : List ValueType → ByteBuffer × Result (List Value)
  | [] => (b, .ok [])
  | t :: ts =>
    match b.extract t with
    | (after, .ok v) => ((after.extractAll ts).1, (after.extractAll ts).2.map (v :: ·))
    | (after, .error f) => (after, .error f)

variable {b : ByteBuffer}

/-! ## Insertion -/

theorem insert_at_end {v : Value} (hw : b.wpos = b.size)
    (hsize : b.size + v.encoded.length ≤ 10000000) :
    b.insert v =
      .ok ⟨b.rpos, b.wpos + v.encoded.length, b.storage ++ v.encoded⟩ := by
  cases v with
  | scalar k v =>
    have hne : k.fixed.toBytes v ≠ [] := k.fixed.toBytes_ne_nil v
    have hpos : 0 < (k.fixed.toBytes v).length := List.length_pos_iff.mpr hne
    have hroom : b.size < 10000000 := by
      change b.size + (k.fixed.toBytes v).length ≤ _ at hsize
      omega
    exact append_at_end hw hne hroom
  | string text =>
    have hroom : b.size + text.length < 10000000 := by
      simpa [Value.encoded, ← Nat.add_assoc, Nat.succ_le_iff] using hsize
    simpa [insert, Value.encoded, ← Nat.add_assoc] using appendString_at_end hw hroom

theorem insertAll_at_end (vs : List Value) (hw : b.wpos = b.size)
    (hsize : b.size + (Value.encodedAll vs).length ≤ 10000000) :
    b.insertAll vs = .ok ⟨b.rpos, b.wpos + (Value.encodedAll vs).length,
      b.storage ++ Value.encodedAll vs⟩ := by
  induction vs generalizing b with
  | nil => simp [insertAll, Value.encodedAll]
  | cons v vs ih =>
    simp only [Value.encodedAll_cons, List.length_append] at hsize ⊢
    have hfirst := insert_at_end (v := v) hw (by omega)
    have hrest := ih (b := ⟨b.rpos, b.wpos + v.encoded.length, b.storage ++ v.encoded⟩)
      (by simpa [size] using hw) (by simpa [size, ← Nat.add_assoc] using hsize)
    simp only [insertAll, hfirst]
    refine hrest.trans ?_
    rw [Nat.add_assoc, List.append_assoc]

/-! ## Extraction -/

theorem takeCString_of_terminated {text rest : Bytes} (h : 0 ∉ text) :
    takeCString (text ++ 0 :: rest) = (text, text.length + 1) := by
  induction text with
  | nil => rfl
  | cons c cs ih =>
    rw [List.mem_cons, not_or] at h
    rw [List.cons_append, takeCString, if_neg (Ne.symm h.1), ih h.2]
    rfl

theorem read_encoded (pre rest : Bytes) (w : Nat) {src : Bytes}
    (hsize : pre.length + src.length < 2 ^ 64) :
    read ⟨pre.length, w, pre ++ src ++ rest⟩ src.length =
      .ok (src, ⟨pre.length + src.length, w, pre ++ src ++ rest⟩) := by
  have hadd : addSize pre.length src.length = pre.length + src.length := Nat.mod_eq_of_lt hsize
  have hfits : ¬ (pre ++ src ++ rest).length < pre.length + src.length := by
    rw [List.length_append, List.length_append]
    omega
  have hdrop : (pre ++ src ++ rest).drop pre.length = src ++ rest := by
    rw [List.append_assoc, List.drop_left]
  have hspan : (span (pre ++ src ++ rest) pre.length (pre.length + src.length : Nat) :
      Result Bytes) = .ok src := span_of_drop rest hdrop rfl
  rw [read, readAt, size, hadd, if_neg hfits, hspan]
  rfl

theorem extract_encoded (pre rest : Bytes) (w : Nat) {v : Value} (hv : v.Readable)
    (hsize : pre.length + v.encoded.length < 2 ^ 64) :
    extract ⟨pre.length, w, pre ++ v.encoded ++ rest⟩ v.type =
      (⟨pre.length + v.encoded.length, w, pre ++ v.encoded ++ rest⟩, .ok v) := by
  cases v with
  | scalar k v =>
    have hread := read_encoded pre rest w hsize
    rw [Value.encoded, k.fixed.length_toBytes] at hread
    simp only [extract, Value.type, Value.encoded, hread, k.fixed.ofBytes_toBytes,
      k.fixed.length_toBytes]
  | string text =>
    have hdrop : (pre ++ (text ++ [0]) ++ rest).drop pre.length = text ++ 0 :: rest := by
      rw [List.append_assoc, List.drop_left, List.append_assoc, List.singleton_append]
    have htake : takeCString ((pre ++ (text ++ [0]) ++ rest).drop pre.length) =
        (text, text.length + 1) := by
      rw [hdrop, takeCString_of_terminated hv.1]
    have hvalid : Utf8.isValid (takeCString ((pre ++ (text ++ [0]) ++ rest).drop pre.length)).1 =
        true := by
      rw [htake]
      exact hv.2
    have hread := readCString_of_valid
      (b := ⟨pre.length, w, pre ++ (text ++ [0]) ++ rest⟩) hvalid
    simp only [htake] at hread
    simp only [extract, Value.type, Value.encoded, hread, afterCString, htake]
    simp only [List.length_append, List.length_singleton]
    rfl

theorem extractAll_encoded (pre : Bytes) (w : Nat) {vs : List Value}
    (hvs : ∀ v ∈ vs, v.Readable)
    (hsize : pre.length + (Value.encodedAll vs).length < 2 ^ 64) :
    extractAll ⟨pre.length, w, pre ++ Value.encodedAll vs⟩ (vs.map Value.type) =
      (⟨pre.length + (Value.encodedAll vs).length, w, pre ++ Value.encodedAll vs⟩, .ok vs) := by
  induction vs generalizing pre with
  | nil => rfl
  | cons v vs ih =>
    obtain ⟨hv, hrest⟩ := List.forall_mem_cons.mp hvs
    rw [Value.encodedAll_cons, List.length_append, ← Nat.add_assoc] at hsize
    have hfirst := extract_encoded pre (Value.encodedAll vs) w hv
      ((Nat.le_add_right _ _).trans_lt hsize)
    have hnext := ih (pre ++ v.encoded) hrest (by rwa [List.length_append])
    rw [List.length_append] at hnext
    rw [Value.encodedAll_cons, List.map_cons, extractAll, ← List.append_assoc, hfirst,
      List.length_append, ← Nat.add_assoc]
    simp only [hnext]
    rfl

theorem read_at_end {valueSize : Nat} (hpos : 0 < valueSize) (hr : b.rpos = b.size)
    (hsize : b.size + valueSize < 2 ^ 64) :
    b.read valueSize = .error (.thrown (.position false b.rpos valueSize b.size)) := by
  have hadd : addSize b.rpos valueSize = b.rpos + valueSize := Nat.mod_eq_of_lt (hr ▸ hsize)
  have hpast : b.size < b.rpos + valueSize := hr ▸ Nat.lt_add_of_pos_right hpos
  rw [read, readAt, hadd, if_pos hpast]
  rfl

theorem extract_scalar_at_end (k : Scalar) (hr : b.rpos = b.size) (hsize : b.size + 8 < 2 ^ 64) :
    b.extract (.scalar k) =
      (b, .error (.thrown (.position false b.rpos k.fixed.size b.size))) := by
  have hle : k.fixed.size ≤ 8 := by cases k <;> decide
  have hread := read_at_end k.fixed.size_pos hr
    ((Nat.add_le_add_left hle _).trans_lt hsize)
  rw [extract, hread]

/-- What has been written to an empty buffer is read back from it, value for value, and then
the positions are at the end and every further value of fixed size is refused and changes nothing. -/
theorem typed_round_trip (vs : List Value) (hvs : ∀ v ∈ vs, v.Readable)
    (hsize : (Value.encodedAll vs).length < 10000000) :
    ∃ written read, new.insertAll vs = .ok written ∧
      written.extractAll (vs.map Value.type) = (read, .ok vs) ∧
      read.rpos = read.wpos ∧ read.wpos = read.size ∧
      ∀ k, read.extract (.scalar k) =
        (read, .error (.thrown (.position false read.rpos k.fixed.size read.size))) := by
  have hwrite := insertAll_at_end (b := new) vs rfl (by simpa [new, size] using hsize.le)
  have hread := extractAll_encoded [] (Value.encodedAll vs).length hvs
    (by simpa using hsize.trans (by decide))
  simp only [new, Nat.zero_add, List.nil_append, List.length_nil] at hwrite hread
  refine ⟨_, _, hwrite, hread, rfl, rfl, fun k => ?_⟩
  refine extract_scalar_at_end k rfl ?_
  change (Value.encodedAll vs).length + 8 < 2 ^ 64
  omega

theorem typed_round_trip_mixed :
    ∃ written read,
      new.insertAll [.scalar .bool true, .string (ascii "FIX"), .scalar .int16 (-2)] =
        .ok written ∧
      written.extractAll [.scalar .bool, .string, .scalar .int16] =
        (read, .ok [.scalar .bool true, .string (ascii "FIX"), .scalar .int16 (-2)]) := by
  obtain ⟨written, read, hwrite, hread, -⟩ :=
    typed_round_trip [.scalar .bool true, .string (ascii "FIX"), .scalar .int16 (-2)]
      (by decide) (by decide)
  exact ⟨written, read, hwrite, hread⟩

end ByteBuffer
end Warhead
