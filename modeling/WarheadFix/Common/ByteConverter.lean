import WarheadFix.Lib.LittleEndian
import WarheadFix.Lib.Mirror

/-! The conversion between the byte order of the host and that of the packets. -/

namespace Warhead.ByteConverter
open Lib
universe u

abbrev Memory := Nat → UInt8

def swap (a b : Nat) (mem : Memory) : Memory := fun i => mem (Equiv.swap a b i)

def convert : Nat → Nat → Memory → Memory
  | 0, _, mem => mem
  -- the central byte
  | 1, _, mem => mem
  | T + 2, val, mem => convert T (val + 1) (swap val (val + (T + 2) - 1) mem)

theorem convert_eq (T val : Nat) (mem : Memory) (i : Nat) :
    convert T val mem i = mem (mirror val T i) := by
  fun_induction convert T val mem with
  | case1 val mem => rw [mirror_zero]
  | case2 val mem => rw [mirror_one]
  | case3 T val mem ih =>
    rw [ih, ← swap_mirror]
    rfl

theorem convert_of_lt {T val i : Nat} (mem : Memory) (h : i < T) :
    convert T val mem (val + i) = mem (val + (T - 1 - i)) := by
  rw [convert_eq, mirror_of_lt h]

theorem convert_of_outside {T val i : Nat} (mem : Memory) (h : i < val ∨ val + T ≤ i) :
    convert T val mem i = mem i := by
  rw [convert_eq, mirror_of_outside h]

theorem convert_convert (T val : Nat) (mem : Memory) :
    convert T val (convert T val mem) = mem := by
  funext i
  rw [convert_eq, convert_eq, mirror_mirror]

theorem load_convert (T val : Nat) (mem : Memory) :
    load (convert T val mem) val T = (load mem val T).reverse := by
  have hconvert : convert T val mem = fun i => mem (mirror val T i) := funext (convert_eq T val mem)
  rw [hconvert, load_mirror]

/-! ## Hosts -/

/-- `WARHEAD_ENDIAN`. -/
inductive Host where
  | littleEndian
  | bigEndian
  deriving DecidableEq

structure Fundamental (α : Type u) extends Fixed α where
  overloaded : Bool
  size_of_overloaded : overloaded = true → size = 1

namespace Host
variable {α : Type u} {T : Fundamental α}

def ordered : Host → Bytes → Bytes
  | littleEndian, bytes => bytes
  | bigEndian, bytes => bytes.reverse

def object (host : Host) (T : Fundamental α) (v : α) : Bytes := host.ordered (T.toBytes v)

def value (host : Host) (T : Fundamental α) (bytes : Bytes) : α := T.ofBytes (host.ordered bytes)

@[simp] theorem length_ordered (host : Host) (bytes : Bytes) :
    (host.ordered bytes).length = bytes.length := by
  cases host with
  | littleEndian => rfl
  | bigEndian => exact List.length_reverse

theorem ordered_ordered (host : Host) (bytes : Bytes) :
    host.ordered (host.ordered bytes) = bytes := by
  cases host with
  | littleEndian => rfl
  | bigEndian => exact List.reverse_reverse bytes

end Host

section EndianConvert
variable {α : Type u}

def apply (T : Fundamental α) (val : Nat) (mem : Memory) : Memory := convert T.size val mem

def endianConvert (host : Host) (T : Fundamental α) (val : Nat) (mem : Memory) : Memory :=
  if T.overloaded then mem
  else
    match host with
    | .bigEndian => apply T val mem
    | .littleEndian => mem

theorem load_endianConvert (host : Host) (T : Fundamental α) (val : Nat) (mem : Memory) :
    load (endianConvert host T val mem) val T.size = host.ordered (load mem val T.size) := by
  cases host with
  | littleEndian => rw [endianConvert, ite_self, Host.ordered]
  | bigEndian =>
    rw [endianConvert, Host.ordered]
    split_ifs with h
    · rw [T.size_of_overloaded h]
      rfl
    · exact load_convert T.size val mem

end EndianConvert
end Warhead.ByteConverter
