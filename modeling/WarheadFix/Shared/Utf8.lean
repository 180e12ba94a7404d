import WarheadFix.Lib.Memory

/-! The validation of UTF-8 text that the byte buffer asks for, sequence by sequence. -/

namespace Warhead.Utf8
open Lib

def isTrail (oc : UInt8) : Bool := oc >>> 6 == 2

def isSurrogate (cp : Nat) : Bool := 0xd800 ≤ cp && cp ≤ 0xdfff

def isCodePointValid (cp : Nat) : Bool := cp ≤ 0x10ffff && !isSurrogate cp

def sequenceLength (lead : UInt8) : Nat :=
  if lead < 0x80 then 1
  else if lead >>> 5 == 0x6 then 2
  else if lead >>> 4 == 0xe then 3
  else if lead >>> 3 == 0x1e then 4
  else 0

def isOverlongSequence (cp length : Nat) : Bool :=
  if cp < 0x80 then length != 1
  else if cp < 0x800 then length != 2
  else if cp < 0x10000 then length != 3
  else false

def codePoint2 (a b : UInt8) : Nat := (a.toNat <<< 6 &&& 0x7ff) + (b.toNat &&& 0x3f)

def codePoint3 (a b c : UInt8) : Nat :=
  (a.toNat <<< 12 &&& 0xffff) + (b.toNat <<< 6 &&& 0xfff) + (c.toNat &&& 0x3f)

def codePoint4 (a b c d : UInt8) : Nat :=
  (a.toNat <<< 18 &&& 0x1fffff) + (b.toNat <<< 12 &&& 0x3ffff) + (c.toNat <<< 6 &&& 0xfff) +
    (d.toNat &&& 0x3f)

def accepts (cp length : Nat) : Bool := isCodePointValid cp && !isOverlongSequence cp length

/-- Every sequence of the text passes `validate_next`; running out of room, a wrong lead and
a missing trail octet all end the scan before the end. -/
def isValid : Bytes → Bool
  | [] => true
  | a :: t =>
    match sequenceLength a, t with
    | 1, t => accepts a.toNat 1 && isValid t
    | 2, b :: t => isTrail b && accepts (codePoint2 a b) 2 && isValid t
    | 3, b :: c :: t => isTrail b && isTrail c && accepts (codePoint3 a b c) 3 && isValid t
    | 4, b :: c :: d :: t =>
      isTrail b && isTrail c && isTrail d && accepts (codePoint4 a b c d) 4 && isValid t
    | _, _ => false

example : isValid (ascii "FIX.5.0") = true ∧ isValid [0xe2, 0x82, 0xac] = true ∧
    isValid [0xff] = false ∧ isValid [0xc0, 0x80] = false ∧ isValid [0xe2, 0x82] = false := by
  decide

end Warhead.Utf8
