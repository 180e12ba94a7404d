import WarheadFix.Shared.ByteBuffer

/-! The message reader of the vendored FIX library over a buffer of `size` bytes. Pointers
are offsets from the beginning of the buffer; the bytes themselves are a separate
argument, so that the reader can be asked what it does when only some of them are
there. A displacement of a pointer by a `size_t` is taken modulo 2^64, as the
machine adds it: a huge BodyLength or data length moves the pointer backwards. -/

namespace Warhead.Hffix
open Lib

/-- A pair of pointers; the value of an iterator that points nowhere is the empty range. -/
structure FieldValue where
  begin_ : Int
  end_ : Int
  deriving DecidableEq

structure Field where
  tag : Int
  value : FieldValue
  deriving DecidableEq

structure ConstIterator where
  buffer : Int
  current : Field
  deriving DecidableEq

structure MessageReader where
  bufferSize : Nat
  begin_ : ConstIterator
  end_ : ConstIterator
  isComplete : Bool
  isValid : Bool
  deriving DecidableEq

def ConstIterator.null : ConstIterator := ⟨0, ⟨0, ⟨0, 0⟩⟩⟩

namespace MessageReader

def incomplete (size : Nat) : MessageReader := ⟨size, .null, .null, false, true⟩

def invalid (size : Nat) : MessageReader := ⟨size, .null, .null, true, false⟩

end MessageReader

inductive Scan (α : Type) where
  | incomplete
  | invalid
  | found (a : α)
  deriving DecidableEq

def displacement (n : Nat) : Int := Int.bmod n (2 ^ 64)

/-- The version prefix ends at the first SOH from offset 9 on, and at 12 at the latest. -/
def skipPrefix (size : Nat) : Bytes → Nat → Result (Scan Nat)
  | [], b => if size ≤ b then .ok .incomplete else .error .undefined
  | c :: cs, b =>
    if size ≤ b then .ok .incomplete
    else if c = SOH then .ok (.found b)
    else if 11 < b then .ok .invalid
    else skipPrefix size cs (b + 1)

def readBodyLength (size : Nat) : Bytes → Nat → Nat → Result (Scan (Nat × Nat))
  | [], b, _ => if size ≤ b then .ok .incomplete else .error .undefined
  | c :: cs, b, bodylength =>
    if size ≤ b then .ok .incomplete
    else if c = SOH then .ok (.found (b, bodylength))
    else if c < 48 ∨ 57 < c then .ok .invalid
    else readBodyLength size cs (b + 1) ((bodylength * 10 + (c.toNat - 48)) % 2 ^ 64)

def readMsgType (checksum : Int) : Bytes → Int → Result (Option Int)
  | [], _ => .error .undefined
  | c :: cs, b =>
    if c = SOH then .ok (some b)
    else if checksum ≤ b then .ok none
    else readMsgType checksum cs (b + 1)

def expect (mem : Bytes) (p : Int) (c : UInt8) (bad : MessageReader)
    (next : Result MessageReader) : Result MessageReader := do
  let d ← byteAt mem p
  if d = c then next else pure bad

/-- The iterators of a message whose MsgType field begins at `b`, whose MsgType value ends at
`e` and whose trailer begins at `checksum`. -/
def MessageReader.complete (size b : Nat) (checksum e : Int) : MessageReader :=
  { bufferSize := size
    begin_ := ⟨b, ⟨35, ⟨(b + 3 : Nat), e⟩⟩⟩
    end_ := ⟨checksum, ⟨10, ⟨checksum + 3, checksum + 6⟩⟩⟩
    isComplete := true
    isValid := true }

def initBody (mem : Bytes) (size b bodylength : Nat) : Result MessageReader :=
  let checksum : Int := b + displacement bodylength
  if size ≤ b + 3 then .ok (.incomplete size)
  else
    expect mem b 51 (.invalid size) <|
    expect mem (b + 1 : Nat) 53 (.invalid size) <|
    if size < checksum + 7 then .ok (.incomplete size)
    else
      expect mem (checksum - 1) SOH (.invalid size) <|
      expect mem (checksum + 6) SOH (.invalid size) <| do
      match ← readMsgType checksum (mem.drop (b + 4)) (b + 4 : Nat) with
      | none => pure (.invalid size)
      | some e => pure (.complete size b checksum e)

def initLength (mem : Bytes) (size b : Nat) : Result MessageReader :=
  if size ≤ b + 1 then .ok (.incomplete size)
  else
    expect mem (b + 1 : Nat) 57 (.invalid size) <| do
    match ← readBodyLength size (mem.drop (b + 3)) (b + 3) 0 with
    | .incomplete => pure (.incomplete size)
    | .invalid => pure (.invalid size)
    | .found (e, bodylength) => initBody mem size (e + 1) bodylength

def messageReader (mem : Bytes) (size : Nat) : Result MessageReader := do
  match ← skipPrefix size (mem.drop 9) 9 with
  | .incomplete => pure (.incomplete size)
  | .invalid => pure (.invalid size)
  | .found b => initLength mem size b

/-! ## Iteration -/

def lengthFields : List Int :=
  [90, 93, 95, 212, 348, 350, 352, 354, 356, 358, 360, 362, 364, 383, 445, 618, 621, 1184, 1282,
    1397, 1401, 1403, 1468, 1525, 1578, 1620, 1664, 1678, 1733, 1871, 1874, 2072, 2074, 2111,
    2179, 2287, 2351, 2372, 2481, 2494, 2522, 2637, 2651, 2665, 2715, 2718, 2721, 40004, 40008,
    40978, 40980, 40982, 40984, 40986, 40988, 41083, 41101, 41107, 41256, 41320, 41324, 41458,
    41476, 41482, 41653, 41710, 41806, 41811, 41873, 41969, 42025, 42171, 42451, 42652, 42947]

/-- The first length field that is not below the tag is the tag. -/
def isTagADataLength (tag : Int) : Bool := lengthFields.find? (tag ≤ ·) == some tag

/-- The value of a `char`, which is signed, less that of '0'. -/
def digitValue (c : UInt8) : Int := Int.bmod c.toNat 256 - 48

def tagStep (tag : Int) (c : UInt8) : Int := Int.bmod (tag * 10 + digitValue c) (2 ^ 32)

def atou (s : Bytes) : Nat :=
  s.foldl (fun val c => ((val * 10 + digitValue c) % 2 ^ 64).toNat) 0

def scanTag : Bytes → Int → Nat → Result (Int × Nat × UInt8)
  | [], _, _ => .error .undefined
  | c :: cs, tag, n =>
    if c = 61 ∨ c = SOH then .ok (tag, n, c) else scanTag cs (tagStep tag c) (n + 1)

/-- The tag of the data field after a length field, up to '=' only. -/
def scanDataTag : Bytes → Int → Nat → Result (Int × Nat)
  | [], _, _ => .error .undefined
  | c :: cs, tag, n => if c = 61 then .ok (tag, n) else scanDataTag cs (tagStep tag c) (n + 1)

def findSoh : Bytes → Nat → Nat → Result Nat
  | _, 0, n => .ok n
  | [], _ + 1, _ => .error .undefined
  | c :: cs, k + 1, n => if c = SOH then .ok n else findSoh cs k (n + 1)

def MessageReader.messageEnd (r : MessageReader) : Int := r.end_.current.value.end_ + 1

/-- `message_reader_const_iterator::increment`. A search that starts past the end of
the message has no valid range. -/
def increment (mem : Bytes) (r : MessageReader) (i : ConstIterator) : Result ConstIterator := do
  let buffer := i.current.value.end_ + 1
  let (tag, n, c) ← scanTag (suffix mem buffer) 0 0
  let valueBegin := buffer + n
  if c = SOH then pure ⟨buffer, ⟨tag, ⟨valueBegin, valueBegin⟩⟩⟩
  else
    let valueBegin := valueBegin + 1
    if r.messageEnd < valueBegin then .error .undefined
    else
      let len ← findSoh (suffix mem valueBegin) (r.messageEnd - valueBegin).toNat 0
      let valueEnd := valueBegin + len
      if isTagADataLength tag then
        let dataLen := atou (← span mem valueBegin valueEnd)
        let buffer := valueEnd + 1
        let (tag, n) ← scanDataTag (suffix mem buffer) 0 0
        let valueBegin := buffer + n + 1
        pure ⟨buffer, ⟨tag, ⟨valueBegin, valueBegin + displacement dataLen⟩⟩⟩
      else pure ⟨buffer, ⟨tag, ⟨valueBegin, valueEnd⟩⟩⟩

/-- `std::find_if` with `tag_equal`, for as many steps as there are places to stand. An
iterator is determined by where its value ends, so a longer search is a cycle. -/
def findIf (mem : Bytes) (r : MessageReader) (tag : Int) (last : ConstIterator) :
    Nat → ConstIterator → Result ConstIterator
  | 0, _ => .error .diverges
  | fuel + 1, i =>
    if i.buffer = last.buffer ∨ i.current.tag = tag then .ok i
    else do findIf mem r tag last fuel (← increment mem r i)

/-- The iterator of the field found, or nothing and the hint stays as it is. -/
def findWithHint (mem : Bytes) (r : MessageReader) (tag : Int) (i : ConstIterator) :
    Result (Option ConstIterator) := do
  let j ← findIf mem r tag r.end_ (r.bufferSize + 2) i
  if j.buffer ≠ r.end_.buffer then pure (some j)
  else
    let j ← findIf mem r tag i (r.bufferSize + 2) r.begin_
    if j.buffer ≠ i.buffer then pure (some j) else pure none

/-! ## Values -/

def asString (mem : Bytes) (v : FieldValue) : Result Bytes :=
  if v.end_ < v.begin_ then .error (.thrown .lengthError) else span mem v.begin_ v.end_

def asChar (mem : Bytes) (v : FieldValue) : Result UInt8 := byteAt mem v.begin_

def asInt (mem : Bytes) (v : FieldValue) : Result Int := do
  match ← span mem v.begin_ v.end_ with
  | [] => pure 0
  | c :: cs =>
    if c = 45 then pure (Int.bmod (-(cs.foldl tagStep 0)) (2 ^ 32))
    else pure ((c :: cs).foldl tagStep 0)

/-- `atod<int>`: the digits as a mantissa, and less one in the exponent for each after the point. -/
def asDecimal (mem : Bytes) (v : FieldValue) : Result (Int × Int) := do
  let s ← span mem v.begin_ v.end_
  let digits := if s.head? = some 45 then s.tail else s
  let (mantissa, exponent, _) := digits.foldl (fun (m, e, isdecimal) c =>
    if c = 46 then (m, e, true) else (tagStep m c, if isdecimal then e - 1 else e, isdecimal))
    ((0 : Int), (0 : Int), false)
  pure (if s.head? = some 45 then Int.bmod (-mantissa) (2 ^ 32) else mantissa, exponent)

/-- Whether the value has the length of a timestamp; its characters are not checked. -/
def asTimestamp (mem : Bytes) (v : FieldValue) : Result Bool :=
  if v.end_ - v.begin_ = 17 ∨ v.end_ - v.begin_ = 21 then do
    let _ ← span mem v.begin_ v.end_
    pure true
  else pure false

def strncmpEq : Bytes → Bytes → Bool
  | [], _ => true
  | x :: _, [] => x == 0
  | x :: xs, y :: ys => x == y && (x == 0 || strncmpEq xs ys)

def eqString (value s : Bytes) : Bool := value.length == s.length && strncmpEq value s

/-- `operator==` with a C string, which looks at the character after as many as the value has. -/
def eqCString (value cstring : Bytes) : Result Bool :=
  if strncmpEq value cstring then
    if value.length < cstring.length then .ok false
    else if value.length = cstring.length then .ok true
    else .error .undefined
  else .ok false

theorem strncmpEq_self (s : Bytes) : strncmpEq s s = true := by
  induction s with
  | nil => rfl
  | cons x xs ih => simp [strncmpEq, ih]

theorem eqString_self (s : Bytes) : eqString s s = true := by
  simp [eqString, strncmpEq_self]

theorem eqCString_self (s : Bytes) : eqCString s s = .ok true := by
  simp [eqCString, strncmpEq_self]

end Warhead.Hffix
