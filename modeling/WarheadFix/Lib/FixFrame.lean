import WarheadFix.Lib.Memory

/-! Messages in tag=value form with a BodyLength and a CheckSum. A frame carries the proofs
that its length field counts its body and that its fields end where they should, so that
its text is well formed. -/

namespace Warhead.Lib

def IsDigits (digits : Bytes) : Prop := ∀ c ∈ digits, 48 ≤ c ∧ c ≤ 57

instance (digits : Bytes) : Decidable (IsDigits digits) := by
  unfold IsDigits
  infer_instance

def decimal (digits : Bytes) : Nat := digits.foldl (fun n c => n * 10 + (c.toNat - 48)) 0

def threeDigits (n : Nat) : Bytes :=
  [UInt8.ofNat (48 + n / 100 % 10), UInt8.ofNat (48 + n / 10 % 10), UInt8.ofNat (48 + n % 10)]

def byteSum (bs : Bytes) : Nat := (bs.map UInt8.toNat).sum % 256

structure Frame where
  digits : Bytes
  msgType : Bytes
  rest : Bytes
  isDigits : IsDigits digits
  digits_ne : digits ≠ []
  type_ne : msgType ≠ []
  type_soh : SOH ∉ msgType
  rest_ends : rest = [] ∨ ∃ fields, rest = fields ++ [SOH]
  length_eq : decimal digits = msgType.length + rest.length + 4

namespace Frame

def head (version digits : Bytes) : Bytes :=
  ascii "8=" ++ version ++ SOH :: ascii "9=" ++ digits ++ [SOH]

def body (f : Frame) : Bytes := ascii "35=" ++ f.msgType ++ SOH :: f.rest

def trailer (preceding : Bytes) : Bytes := ascii "10=" ++ threeDigits (byteSum preceding) ++ [SOH]

def bytes (version : Bytes) (f : Frame) : Bytes :=
  head version f.digits ++ f.body ++ trailer (head version f.digits ++ f.body)

variable {f : Frame} {version : Bytes}

@[simp] theorem length_head (version digits : Bytes) :
    (head version digits).length = version.length + digits.length + 6 := by
  simp only [head, List.length_append, List.length_cons, List.length_nil]
  change 2 + version.length + (2 + 1) + digits.length + (0 + 1) = _
  omega

@[simp] theorem length_body (f : Frame) : f.body.length = f.msgType.length + f.rest.length + 4 := by
  simp only [body, List.length_append, List.length_cons]
  change 3 + f.msgType.length + (f.rest.length + 1) = _
  omega

@[simp] theorem length_trailer (preceding : Bytes) : (trailer preceding).length = 7 := rfl

theorem length_bytes (version : Bytes) (f : Frame) : (f.bytes version).length =
    version.length + f.digits.length + f.msgType.length + f.rest.length + 17 := by
  simp only [bytes, List.length_append, length_head, length_body, length_trailer]
  omega

theorem body_ends (f : Frame) : ∃ fields, f.body = fields ++ [SOH] := by
  rcases f.rest_ends with hnil | ⟨fields, hrest⟩
  · exact ⟨ascii "35=" ++ f.msgType, by rw [body, hnil]⟩
  · exact ⟨ascii "35=" ++ f.msgType ++ SOH :: fields, by simp [body, hrest]⟩

def bare (c : UInt8) (h : c ≠ SOH) : Frame where
  digits := [53]
  msgType := [c]
  rest := []
  isDigits _ hc := List.mem_singleton.mp hc ▸ ⟨by decide, by decide⟩
  digits_ne := List.cons_ne_nil _ _
  type_ne := by simp
  type_soh := by simpa using h.symm
  rest_ends := .inl rfl
  length_eq := rfl

end Frame

section Digits

theorem foldl_decimal_mod (m : Nat) (digits : Bytes) (n : Nat) :
    digits.foldl (fun n c => (n * 10 + (c.toNat - 48)) % m) (n % m) =
      digits.foldl (fun n c => n * 10 + (c.toNat - 48)) n % m := by
  induction digits generalizing n with
  | nil => rfl
  | cons c digits ih =>
    have hstep : (n % m * 10 + (c.toNat - 48)) % m = (n * 10 + (c.toNat - 48)) % m := by
      rw [Nat.add_mod, Nat.mod_mul_mod, ← Nat.add_mod]
    rw [List.foldl_cons, List.foldl_cons, hstep, ih]

end Digits
end Warhead.Lib
