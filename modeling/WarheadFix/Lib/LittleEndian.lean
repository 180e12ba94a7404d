import WarheadFix.Lib.Memory

/-! Numbers as bytes, the lowest byte first, and types whose values have a fixed number of
bytes. -/

namespace Warhead.Lib
universe u

namespace LittleEndian

def toBytes : Nat → Nat → Bytes
  | 0, _ => []
  | width + 1, n => UInt8.ofNat n :: toBytes width (n / 256)

def ofBytes : Bytes → Nat
  | [] => 0
  | c :: cs => c.toNat + 256 * ofBytes cs

@[simp] theorem length_toBytes (width n : Nat) : (toBytes width n).length = width := by
  induction width generalizing n with
  | zero => rfl
  | succ width ih => rw [toBytes, List.length_cons, ih]

theorem ofBytes_toBytes (width n : Nat) : ofBytes (toBytes width n) = n % 256 ^ width := by
  induction width generalizing n with
  | zero => rw [pow_zero, Nat.mod_one]; rfl
  | succ width ih =>
    have hlow : (UInt8.ofNat n).toNat = n % 256 := UInt8.toNat_ofNat'
    rw [toBytes, ofBytes, ih, hlow, pow_succ', Nat.mod_mul]

theorem ofBytes_lt (bytes : Bytes) : ofBytes bytes < 256 ^ bytes.length := by
  induction bytes with
  | nil => exact Nat.one_pos
  | cons c cs ih =>
    have hc : c.toNat < 256 := c.toNat_lt
    rw [ofBytes, List.length_cons, pow_succ]
    omega

theorem toBytes_ofBytes (bytes : Bytes) : toBytes bytes.length (ofBytes bytes) = bytes := by
  induction bytes with
  | nil => rfl
  | cons c cs ih =>
    have hc : c.toNat < 256 := c.toNat_lt
    have hhigh : (c.toNat + 256 * ofBytes cs) / 256 = ofBytes cs := by omega
    have hlow : UInt8.ofNat (c.toNat + 256 * ofBytes cs) = c := by
      apply UInt8.toNat_inj.mp
      rw [UInt8.toNat_ofNat']
      omega
    rw [List.length_cons, ofBytes, toBytes, hhigh, ih, hlow]

end LittleEndian

structure Fixed (α : Type u) where
  size : Nat
  bits : α → Nat
  ofBits : Nat → α
  size_pos : 0 < size
  bits_lt : ∀ v, bits v < 256 ^ size
  ofBits_bits : ∀ v, ofBits (bits v) = v

namespace Fixed
variable {α : Type u} (T : Fixed α)

def toBytes (v : α) : Bytes := LittleEndian.toBytes T.size (T.bits v)

def ofBytes (bytes : Bytes) : α := T.ofBits (LittleEndian.ofBytes bytes)

@[simp] theorem length_toBytes (v : α) : (T.toBytes v).length = T.size :=
  LittleEndian.length_toBytes _ _

theorem toBytes_ne_nil (v : α) : T.toBytes v ≠ [] := by
  apply List.ne_nil_of_length_pos
  rw [length_toBytes]
  exact T.size_pos

theorem ofBytes_toBytes (v : α) : T.ofBytes (T.toBytes v) = v := by
  have hbits : LittleEndian.ofBytes (T.toBytes v) = T.bits v := by
    rw [toBytes, LittleEndian.ofBytes_toBytes, Nat.mod_eq_of_lt (T.bits_lt v)]
  rw [ofBytes, hbits, T.ofBits_bits]

end Fixed
end Warhead.Lib
