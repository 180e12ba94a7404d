import WarheadFix.Common.LogConfig
import WarheadFix.Lib.Digits

/-! Integers to text and back, by the conversions of the standard library. For an unsigned type they
come to the closed form that the loading of the log uses (`stringTo_eq`). -/

namespace Warhead.StringConvert
open Lib

inductive Integral where
  | int8
  | int16
  | int32
  | int64
  | uint8
  | uint16
  | uint32
  | uint64
  deriving DecidableEq

namespace Integral

def bits : Integral → Nat
  | int8 | uint8 => 8
  | int16 | uint16 => 16
  | int32 | uint32 => 32
  | int64 | uint64 => 64

def signed : Integral → Bool
  | int8 | int16 | int32 | int64 => true
  | uint8 | uint16 | uint32 | uint64 => false

def Holds (T : Integral) (i : Int) : Prop :=
  if T.signed then -2 ^ (T.bits - 1) ≤ i ∧ i < 2 ^ (T.bits - 1) else 0 ≤ i ∧ i < 2 ^ T.bits

instance (T : Integral) (i : Int) : Decidable (T.Holds i) := by
  unfold Holds
  infer_instance

abbrev Value (T : Integral) := {i : Int // T.Holds i}

end Integral

variable {T : Integral}

/-! ## The standard library -/

def text (i : Int) : Bytes := if i < 0 then 45 :: digits i.natAbs else digits i.natAbs

/-- `std::to_chars` into a buffer of this size, none being `value_too_large`. -/
def toChars (size : Nat) (i : Int) : Option Bytes :=
  if (text i).length ≤ size then some (text i) else none

def charValue (c : UInt8) : Nat :=
  if 48 ≤ c ∧ c ≤ 57 then c.toNat - 48
  else if 97 ≤ c ∧ c ≤ 122 then c.toNat - 87
  else if 65 ≤ c ∧ c ≤ 90 then c.toNat - 55
  else 36

def number (base : Nat) (text : Bytes) : Nat := text.foldl (fun n c => n * base + charValue c) 0

inductive Errc where
  | invalidArgument
  | resultOutOfRange

def splitSign (T : Integral) : Bytes → Bool × Bytes
  | [] => (false, [])
  | c :: text => if T.signed ∧ c = 45 then (true, text) else (false, c :: text)

def withSign (negative : Bool) (n : Nat) : Int := if negative then -n else n

def inRange (T : Integral) (i : Int) : Except Errc T.Value :=
  if h : T.Holds i then .ok ⟨i, h⟩ else .error .resultOutOfRange

/-- `std::from_chars`: how many characters match, and their value. -/
def fromChars (T : Integral) (text : Bytes) (base : Nat) : Nat × Except Errc T.Value :=
  let (negative, unsigned) := splitSign T text
  let matched := unsigned.takeWhile (charValue · < base)
  if matched = [] then (0, .error .invalidArgument)
  else
    (text.length - unsigned.length + matched.length,
      inRange T (withSign negative (number base matched)))

/-! ## The conversions -/

def convert (T : Integral) (str : Bytes) (base : Nat) : Option T.Value :=
  match fromChars T str base with
  | (ptr, .ok val) => if ptr = str.length then some val else none
  | _ => none

def fromString (T : Integral) (str : Bytes) (base : Nat) : Option T.Value :=
  if base = 0 then
    let (base, str) :=
      if Log.stringEqualI (str.take 2) (ascii "0x") then (16, str.drop 2)
      else if Log.stringEqualI (str.take 2) (ascii "0b") then (2, str.drop 2)
      else (10, str)
    if str = [] then none else convert T str base
  else convert T str base

def toString (val : T.Value) : Outcome Empty Bytes :=
  match toChars 20 val with
  | none => .error .aborted
  | some buf => .ok buf

/-! ## What is read -/

theorem length_splitSign (T : Integral) (text : Bytes) :
    (splitSign T text).2.length ≤ text.length := by
  cases text with
  | nil => exact le_rfl
  | cons c text =>
    rw [splitSign]
    split_ifs
    · exact Nat.le_succ _
    · exact le_rfl

theorem inRange_eq_ok {i : Int} {val : T.Value} : inRange T i = .ok val ↔ val.1 = i := by
  unfold inRange
  constructor
  · intro h
    split_ifs at h
    exact congrArg Subtype.val (Except.ok.inj h).symm
  · rintro rfl
    exact dif_pos val.2

theorem fromChars_eq_ok {text : Bytes} {base n : Nat} {val : T.Value} {matched : Bytes}
    (hmatched : (splitSign T text).2.takeWhile (charValue · < base) = matched) :
    fromChars T text base = (n, .ok val) ↔ matched ≠ [] ∧
      text.length - (splitSign T text).2.length + matched.length = n ∧
      val.1 = withSign (splitSign T text).1 (number base matched) := by
  unfold fromChars
  dsimp only
  rw [hmatched]
  split_ifs with hnil
  · simp [hnil]
  · rw [Prod.mk.injEq, inRange_eq_ok]
    simp [hnil]

theorem convert_iff {str : Bytes} {base : Nat} {val : T.Value} :
    convert T str base = some val ↔ fromChars T str base = (str.length, .ok val) := by
  unfold convert
  cases fromChars T str base with
  | mk ptr r =>
    cases r with
    | error e => simp
    | ok v =>
      dsimp only
      split_ifs with h
      · simp [h]
      · simp [h]

theorem convert_eq_some {str : Bytes} {base : Nat} {val : T.Value} :
    convert T str base = some val ↔ (splitSign T str).2 ≠ [] ∧
      (∀ c ∈ (splitSign T str).2, charValue c < base) ∧
      val.1 = withSign (splitSign T str).1 (number base (splitSign T str).2) := by
  have hlength := length_splitSign T str
  have hpre := List.takeWhile_prefix (charValue · < base) (l := (splitSign T str).2)
  have hall : (∀ c ∈ (splitSign T str).2, charValue c < base) ↔
      (splitSign T str).2.takeWhile (charValue · < base) = (splitSign T str).2 := by
    rw [List.takeWhile_eq_self_iff]
    simp
  rw [convert_iff, hall]
  by_cases hself : (splitSign T str).2.takeWhile (charValue · < base) = (splitSign T str).2
  · rw [fromChars_eq_ok hself]
    simp [hself, Nat.sub_add_cancel hlength]
  · have hshort : ((splitSign T str).2.takeWhile (charValue · < base)).length ≠
        (splitSign T str).2.length := fun heq => hself (hpre.eq_of_length heq)
    have hle := hpre.length_le
    rw [fromChars_eq_ok rfl]
    constructor
    · rintro ⟨-, hall, -⟩
      omega
    · rintro ⟨-, hall, -⟩
      exact absurd hall hself

/-! ## Base 10 -/

def Denotes (T : Integral) (str : Bytes) (i : Int) : Prop :=
  ∃ ds, ds ≠ [] ∧ IsDigits ds ∧
    (str = ds ∧ i = decimal ds ∨ T.signed = true ∧ str = 45 :: ds ∧ i = -decimal ds)

theorem charValue_lt_ten (c : UInt8) : charValue c < 10 ↔ 48 ≤ c ∧ c ≤ 57 := by
  unfold charValue
  simp only [UInt8.le_iff_toNat_le]
  change _ ↔ 48 ≤ c.toNat ∧ c.toNat ≤ 57
  have hdigit : (48 : UInt8).toNat = 48 ∧ (57 : UInt8).toNat = 57 := ⟨rfl, rfl⟩
  have hlower : (97 : UInt8).toNat = 97 ∧ (122 : UInt8).toNat = 122 := ⟨rfl, rfl⟩
  have hupper : (65 : UInt8).toNat = 65 ∧ (90 : UInt8).toNat = 90 := ⟨rfl, rfl⟩
  split_ifs <;> omega

theorem number_ten {ds : Bytes} (h : IsDigits ds) : number 10 ds = decimal ds := by
  refine List.foldl_ext _ _ _ fun n c hc => ?_
  rw [charValue, if_pos (h c hc)]

theorem isDigits_iff (ds : Bytes) : IsDigits ds ↔ ∀ c ∈ ds, charValue c < 10 :=
  forall₂_congr fun c _ => (charValue_lt_ten c).symm

theorem not_isDigits_minus (ds : Bytes) : ¬IsDigits (45 :: ds) :=
  fun h => absurd (h 45 List.mem_cons_self) (by decide)

theorem fromString_eq_some {str : Bytes} {val : T.Value} :
    fromString T str 10 = some val ↔ Denotes T str val := by
  change convert T str 10 = some val ↔ _
  rw [convert_eq_some, ← isDigits_iff]
  cases str with
  | nil =>
    constructor
    · exact fun h => absurd rfl h.1
    · rintro ⟨ds, hne, -, ⟨rfl, -⟩ | ⟨-, h, -⟩⟩
      · exact absurd rfl hne
      · cases h
  | cons c text =>
    rw [splitSign]
    split_ifs with hsign
    · obtain ⟨hsigned, rfl⟩ := hsign
      constructor
      · rintro ⟨hne, hdigits, hval⟩
        rw [number_ten hdigits] at hval
        exact ⟨text, hne, hdigits, .inr ⟨hsigned, rfl, hval⟩⟩
      · rintro ⟨ds, hne, hdigits, ⟨rfl, -⟩ | ⟨-, hds, hval⟩⟩
        · exact absurd hdigits (not_isDigits_minus text)
        · cases hds
          refine ⟨hne, hdigits, ?_⟩
          rw [number_ten hdigits]
          exact hval
    · constructor
      · rintro ⟨hne, hdigits, hval⟩
        rw [number_ten hdigits] at hval
        exact ⟨c :: text, hne, hdigits, .inl ⟨rfl, hval⟩⟩
      · rintro ⟨ds, hne, hdigits, ⟨rfl, hval⟩ | ⟨hsigned, hds, -⟩⟩
        · refine ⟨hne, hdigits, ?_⟩
          rw [number_ten hdigits]
          exact hval
        · cases hds
          exact absurd ⟨hsigned, rfl⟩ hsign

theorem Integral.Holds.bounds {i : Int} (h : T.Holds i) :
    -2 ^ 63 ≤ i ∧ i < 2 ^ 64 ∧ (i < 0 → T.signed = true) := by
  cases T <;> simp only [Holds, signed, bits, if_true, Bool.false_eq_true, if_false, implies_true,
    and_true] at h ⊢ <;> omega

theorem length_text_le (val : T.Value) : (text val).length ≤ 20 := by
  obtain ⟨hlo, hhi, -⟩ := val.2.bounds
  unfold text
  split_ifs with hneg
  · exact Nat.succ_le_succ (length_digits_le (k := 19) (by decide) (by omega))
  · exact length_digits_le (by decide) (by omega)

theorem denotes_text (val : T.Value) : Denotes T (text val) val := by
  obtain ⟨-, -, hsigned⟩ := val.2.bounds
  unfold text
  refine ⟨digits val.1.natAbs, digits_ne_nil _, isDigits_digits _, ?_⟩
  rw [decimal_digits]
  split_ifs with hneg
  · exact .inr ⟨hsigned hneg, rfl, by omega⟩
  · exact .inl ⟨rfl, by omega⟩

theorem toString_eq (val : T.Value) : toString val = .ok (text val) := by
  have hchars : toChars 20 val = some (text val) := if_pos (length_text_le val)
  rw [toString, hchars]

theorem stringTo_eq (hT : T.signed = false) (str : Bytes) :
    Log.stringTo T.bits str = (fromString T str 10).map (·.1.toNat) := by
  have hdigits : str.all Fmt.isDigit = true ↔ IsDigits str := by
    simp [Fmt.isDigit, IsDigits]
  have hholds : T.Holds (decimal str) ↔ decimal str < 2 ^ T.bits := by
    rw [Integral.Holds, hT]
    simp only [Bool.false_eq_true, if_false]
    norm_cast
    omega
  unfold Log.stringTo
  simp only [hdigits, ← hholds]
  split_ifs with h
  · obtain ⟨hne, hds, hval⟩ := h
    have hsome : fromString T str 10 = some ⟨decimal str, hval⟩ :=
      fromString_eq_some.mpr ⟨str, hne, hds, .inl ⟨rfl, rfl⟩⟩
    rw [hsome]
    rfl
  · cases hread : fromString T str 10 with
    | none => rfl
    | some val =>
      obtain ⟨ds, hne, hds, ⟨rfl, hval⟩ | ⟨hsigned, -⟩⟩ := fromString_eq_some.mp hread
      · exact absurd ⟨hne, hds, hval ▸ val.2⟩ h
      · rw [hT] at hsigned
        cases hsigned

/-- The buffer is always large enough, the text is read back, and a text is read in base 10 if and
only if it denotes a value of the type. -/
theorem integer_round_trip (T : Integral) :
    (∀ val : T.Value, ∃ buf, toString val = .ok buf ∧ buf.length ≤ 20 ∧
      fromString T buf 10 = some val) ∧
    ∀ (str : Bytes) (val : T.Value), fromString T str 10 = some val ↔ Denotes T str val :=
  ⟨fun val => ⟨text val, toString_eq val, length_text_le val,
    fromString_eq_some.mpr (denotes_text val)⟩, fun _ _ => fromString_eq_some⟩

end Warhead.StringConvert
