import WarheadFix.Shared.ByteBuffer

/-! The message writer of the vendored FIX library, as far as the test messages use it. -/

namespace Warhead.Hffix
open Lib

structure Timestamp where
  (year month day hour minute second millisecond : Int)

def utoa (n : Nat) : Bytes := (Nat.toDigits 10 n).map Char.toUInt8

def itoa (n : Int) : Bytes := if n < 0 then 45 :: utoa n.natAbs else utoa n.natAbs

def itoaPadded : Nat → Int → Bytes
  | 0, _ => []
  | width + 1, x => itoaPadded width (x.tdiv 10) ++ [UInt8.ofNat (48 + x.tmod 10).toNat]

/-- The digits of a decimal in reverse order, with the point where the exponent reaches 0. -/
def dtoaReversed : Nat → Nat → Int → Bytes
  | 0, _, _ => []
  | fuel + 1, mantissa, exponent =>
    let rest :=
      if 0 < mantissa / 10 ∨ exponent + 1 < 1 then dtoaReversed fuel (mantissa / 10) (exponent + 1)
      else []
    UInt8.ofNat (48 + mantissa % 10) :: if exponent + 1 = 0 then 46 :: rest else rest

def dtoa (mantissa exponent : Int) : Bytes :=
  let digits := (dtoaReversed (mantissa.natAbs + exponent.natAbs + 2) mantissa.natAbs exponent).reverse
  if mantissa < 0 then 45 :: digits else digits

def checkSum (s : Bytes) : UInt8 := s.foldl (· + ·) 0

structure MessageWriter where
  room : Nat
  written : Bytes
  bodyLength : Option Nat

namespace MessageWriter

def new (room : Nat) : MessageWriter := ⟨room, [], none⟩

/-- The six characters of the BodyLength are reserved here and written with the trailer. -/
def pushBackHeader (w : MessageWriter) (beginStringVersion : Bytes) : Result MessageWriter :=
  if w.bodyLength.isSome then .error (.thrown .logicError)
  else if w.room < w.written.length + (2 + beginStringVersion.length + 3 + 7) then
    .error (.thrown .outOfRange)
  else
    let written := w.written ++ ascii "8=" ++ beginStringVersion ++ [SOH] ++ ascii "9="
    .ok { w with written := written ++ List.replicate 6 0 ++ [SOH], bodyLength := some written.length }

def fieldBytes (tag : Int) (value : Bytes) : Bytes := itoa tag ++ [61] ++ value ++ [SOH]

/-- The `push_back` methods check the room piece by piece; none writes a field that does
not fit, and each writes the field that does. -/
def pushField (w : MessageWriter) (tag : Int) (value : Bytes) : Result MessageWriter :=
  if w.room < w.written.length + (fieldBytes tag value).length then .error (.thrown .outOfRange)
  else .ok { w with written := w.written ++ fieldBytes tag value }

def pushBackString (w : MessageWriter) (tag : Int) (s : Bytes) : Result MessageWriter :=
  w.pushField tag s

def pushBackChar (w : MessageWriter) (tag : Int) (character : UInt8) : Result MessageWriter :=
  w.pushField tag [character]

def pushBackInt (w : MessageWriter) (tag number : Int) : Result MessageWriter :=
  w.pushField tag (itoa number)

def pushBackDecimal (w : MessageWriter) (tag mantissa exponent : Int) : Result MessageWriter :=
  w.pushField tag (dtoa mantissa exponent)

def timestampText (t : Timestamp) : Bytes :=
  itoaPadded 4 t.year ++ itoaPadded 2 t.month ++ itoaPadded 2 t.day ++ [45] ++
    itoaPadded 2 t.hour ++ [58] ++ itoaPadded 2 t.minute ++ [58] ++ itoaPadded 2 t.second ++ [46] ++
    itoaPadded 3 t.millisecond

def pushBackTimestamp (w : MessageWriter) (tag : Int) (t : Timestamp) : Result MessageWriter :=
  w.pushField tag (timestampText t)

/-- Two fields, the first of which is the length of the data in the second. -/
def pushBackData (w : MessageWriter) (tagDataLength tagData : Int) (data : Bytes) :
    Result MessageWriter :=
  let text := fieldBytes tagDataLength (itoa data.length) ++ fieldBytes tagData data
  if w.room < w.written.length + text.length then .error (.thrown .outOfRange)
  else .ok { w with written := w.written ++ text }

def pushBackTrailer (w : MessageWriter) : Result MessageWriter :=
  match w.bodyLength with
  | none => .error (.thrown .logicError)
  | some at_ =>
    let len := w.written.length - (at_ + 7)
    let written := overwrite w.written at_ (itoaPadded 6 len)
    if w.room < written.length + 7 then .error (.thrown .outOfRange)
    else
      let sum := checkSum written
      .ok { w with written := written ++ ascii "10=" ++ itoaPadded 3 sum.toNat ++ [SOH] }

def pushAll (calls : List (MessageWriter → Result MessageWriter)) (w : MessageWriter) :
    Result MessageWriter :=
  calls.foldlM (fun w call => call w) w

end MessageWriter

example : dtoa 50001 (-2) = ascii "500.01" ∧ itoa (-120) = ascii "-120" ∧
    itoaPadded 3 7 = ascii "007" := by decide

theorem length_itoaPadded (width : Nat) (x : Int) : (itoaPadded width x).length = width := by
  induction width generalizing x with
  | zero => rfl
  | succ width ih => rw [itoaPadded, List.length_append, ih, List.length_singleton]

namespace MessageWriter
variable {w w' : MessageWriter}

@[simp] theorem length_timestampText (t : Timestamp) : (timestampText t).length = 21 := by
  simp [timestampText, length_itoaPadded]

theorem pushField_of_room {tag : Int} {value : Bytes}
    (h : w.written.length + (fieldBytes tag value).length ≤ w.room) :
    w.pushField tag value = .ok { w with written := w.written ++ fieldBytes tag value } :=
  if_neg (Nat.not_lt.mpr h)

def Adds (call : MessageWriter → Result MessageWriter) (n : Nat) : Prop :=
  ∀ w : MessageWriter, w.written.length + n ≤ w.room → ∃ w', call w = .ok w' ∧
    w'.room = w.room ∧ w'.bodyLength = w.bodyLength ∧ w'.written.length = w.written.length + n

theorem adds_pushField (tag : Int) (value : Bytes) :
    Adds (·.pushField tag value) (fieldBytes tag value).length := by
  intro w h
  exact ⟨_, pushField_of_room h, rfl, rfl, List.length_append⟩

theorem adds_pushAll {calls : List (MessageWriter → Result MessageWriter)} {ns : List Nat}
    (h : List.Forall₂ Adds calls ns) : Adds (pushAll calls) ns.sum := by
  induction h with
  | nil => exact fun w _ => ⟨w, rfl, rfl, rfl, rfl⟩
  | @cons call n calls ns hcall _ ih =>
    intro w hroom
    rw [List.sum_cons] at hroom
    obtain ⟨w₁, h₁, hr₁, hb₁, hl₁⟩ := hcall w (by omega)
    obtain ⟨w₂, h₂, hr₂, hb₂, hl₂⟩ := ih w₁ (by omega)
    refine ⟨w₂, ?_, hr₂.trans hr₁, hb₂.trans hb₁, ?_⟩
    · change (call w >>= pushAll calls) = _
      rw [h₁]
      exact h₂
    · rw [hl₂, hl₁, List.sum_cons, Nat.add_assoc]

theorem pushBackHeader_new {room : Nat} {version : Bytes} (h : version.length + 12 ≤ room) :
    ∃ w, (new room).pushBackHeader version = .ok w ∧ w.room = room ∧
      w.bodyLength = some (version.length + 5) ∧ w.written.length = version.length + 12 := by
  have hat : (ascii "8=" ++ version ++ [SOH] ++ ascii "9=").length = version.length + 5 := by
    simp only [List.length_append, List.length_singleton]
    change 2 + version.length + 1 + 2 = _
    omega
  refine ⟨⟨room, ascii "8=" ++ version ++ [SOH] ++ ascii "9=" ++ List.replicate 6 0 ++ [SOH],
    some (version.length + 5)⟩, ?_, rfl, rfl, ?_⟩
  · unfold pushBackHeader
    rw [if_neg (by simp [new]), if_neg (by simp only [new, List.length_nil]; omega)]
    simp only [new, List.nil_append, hat]
  · rw [List.length_append, List.length_append, hat]
    rfl

end MessageWriter
end Warhead.Hffix
