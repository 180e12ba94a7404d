import WarheadFix.Lib.FixFrame

/-! Decimal texts: the digits of a number, and the number that digits are. -/

namespace Warhead.Lib

def digits (n : Nat) : Bytes := (Nat.toDigits 10 n).map Char.toUInt8

theorem digits_ne_nil (n : Nat) : digits n ≠ [] := by
  rw [digits, Ne, List.map_eq_nil_iff]
  exact Nat.toDigits_ne_nil

theorem toUInt8_digitChar {d : Nat} (hd : d < 10) :
    (Nat.digitChar d).toUInt8.toNat = 48 + d := by
  interval_cases d <;> rfl

theorem digits_of_lt {n : Nat} (h : n < 10) : digits n = [(Nat.digitChar n).toUInt8] := by
  rw [digits, Nat.toDigits_of_lt_base h]
  rfl

theorem digits_of_le {n : Nat} (h : 10 ≤ n) :
    digits n = digits (n / 10) ++ [(Nat.digitChar (n % 10)).toUInt8] := by
  rw [digits, Nat.toDigits_of_base_le (by decide) h, List.map_append]
  rfl

theorem isDigits_digits (n : Nat) : IsDigits (digits n) := by
  have hdigit : ∀ d, d < 10 → ∀ c ∈ [(Nat.digitChar d).toUInt8], 48 ≤ c ∧ c ≤ 57 := by
    intro d hd c hc
    have hvalue := toUInt8_digitChar hd
    rw [List.mem_singleton.mp hc, UInt8.le_iff_toNat_le, UInt8.le_iff_toNat_le, hvalue]
    change 48 ≤ 48 + d ∧ 48 + d ≤ 57
    omega
  induction n using Nat.strong_induction_on with
  | _ n ih =>
    rcases Nat.lt_or_ge n 10 with h | h
    · rw [digits_of_lt h]
      exact hdigit n h
    · rw [digits_of_le h]
      exact List.forall_mem_append.mpr ⟨ih _ (by omega), hdigit _ (Nat.mod_lt _ (by decide))⟩

theorem decimal_append_singleton (s : Bytes) (c : UInt8) :
    decimal (s ++ [c]) = decimal s * 10 + (c.toNat - 48) := by
  rw [decimal, List.foldl_append]
  rfl

theorem decimal_replicate_append (k : Nat) (s : Bytes) :
    decimal (List.replicate k 48 ++ s) = decimal s := by
  induction k with
  | zero => rfl
  | succ k ih => exact ih

theorem decimal_digits (n : Nat) : decimal (digits n) = n := by
  induction n using Nat.strong_induction_on with
  | _ n ih =>
    rcases Nat.lt_or_ge n 10 with h | h
    · rw [digits_of_lt h, ← List.nil_append [_], decimal_append_singleton, toUInt8_digitChar h]
      simp [decimal]
    · rw [digits_of_le h, decimal_append_singleton, ih _ (by omega),
        toUInt8_digitChar (Nat.mod_lt _ (by decide))]
      omega

theorem length_digits_le {n k : Nat} (hk : 0 < k) (h : n < 10 ^ k) : (digits n).length ≤ k := by
  rw [digits, List.length_map, Nat.length_toDigits_le_iff (by decide) hk]
  exact h

end Warhead.Lib
