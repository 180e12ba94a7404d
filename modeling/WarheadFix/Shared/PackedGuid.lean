import WarheadFix.Shared.BoundsChecks
import WarheadFix.Shared.TypedValues
import WarheadFix.Lib.Sparse

/-! Packed GUIDs. The eight bytes of a GUID are written without those that are zero, behind a mask
that says where the others belong. -/

namespace Warhead
open Lib

namespace ByteBuffer

structure Packing where
  packGUID : Bytes
  size : Nat
  i : UInt8
  guid : UInt64

namespace Packing

def store (array : Bytes) (i : Nat) (value : UInt8) : Result Bytes :=
  if i < array.length then .ok (array.set i value) else .error .undefined

/-- `uint8(1 << i)`, a shift of an `int`. -/
def bit (i : UInt8) : Result UInt8 :=
  if i < 32 then .ok (UInt8.ofNat (1 <<< i.toNat)) else .error .undefined

def keep (s : Packing) : Result Packing := do
  let packGUID ← store s.packGUID 0 ((← byteAt s.packGUID 0) ||| (← bit s.i))
  let packGUID ← store packGUID s.size (s.guid &&& 0xFF).toUInt8
  return { s with packGUID := packGUID, size := s.size + 1 }

def body (s : Packing) : Result Packing := do
  let s ← if s.guid &&& 0xFF ≠ 0 then s.keep else pure s
  return { s with guid := s.guid >>> 8, i := s.i + 1 }

def loop : Nat → Packing → Result Packing
  | 0, _ => .error .diverges
  | fuel + 1, s => if s.guid ≠ 0 then do loop fuel (← s.body) else pure s

end Packing

/-- The array lies on the stack, with the nine bytes that are there. -/
def appendPackGUID (b : ByteBuffer) (stack : Vector UInt8 9) (fuel : Nat) (guid : UInt64) :
    Result ByteBuffer := do
  let packGUID ← Packing.store stack.toList 0 0
  let s ← Packing.loop fuel ⟨packGUID, 1, 0, guid⟩
  b.append (← span s.packGUID 0 s.size)

namespace Member

def nextByte : Member UInt8 := do
  let b ← get
  checkRange b.rpos 1
  let bytes ← readValue 1
  return Scalar.uint8.fixed.ofBytes bytes

def unpack (guidmark : UInt8) : Nat → Nat → UInt64 → Member UInt64
  | 0, _, guid => pure guid
  | n + 1, i, guid =>
    if guidmark.toNat &&& 1 <<< i ≠ 0 then do
      let bit ← nextByte
      unpack guidmark n (i + 1) (guid ||| bit.toUInt64 <<< UInt64.ofNat (i * 8))
    else unpack guidmark n (i + 1) guid

def readPackGUID : Member UInt64 := do
  let guidmark ← nextByte
  unpack guidmark 8 0 0

end Member

/-- The bytes that are written for a GUID: those of its little-endian bytes that are not zero, and
before them where they stand. -/
def packed (guid : UInt64) : Bytes :=
  let digits := LittleEndian.toBytes 8 guid.toNat
  UInt8.ofNat (Sparse.mask 0 digits) :: Sparse.kept 0 digits

/-! ## Writing -/

namespace Packing
variable {out free : Bytes} {c : UInt8} {i m : Nat} {guid : UInt64}

theorem bit_of_lt (hi : i < 8) : bit (UInt8.ofNat i) = .ok (UInt8.ofNat (2 ^ i)) := by
  have hall : ∀ i : Fin 8, bit (UInt8.ofNat i) = .ok (UInt8.ofNat (2 ^ i.val)) := by decide
  exact hall ⟨i, hi⟩

theorem mark_or (hm : m < 2 ^ i) :
    UInt8.ofNat m ||| UInt8.ofNat (2 ^ i) = UInt8.ofNat (m + 2 ^ i) := by
  have hor := Nat.two_pow_add_eq_or_of_lt hm 1
  rw [Nat.mul_one] at hor
  rw [← UInt8.ofNat_or, Nat.or_comm, ← hor, Nat.add_comm]

theorem low_toNat : (guid &&& 0xFF).toNat = guid.toNat % 256 := by
  rw [UInt64.toNat_and]
  exact Nat.and_two_pow_sub_one_eq_mod _ 8

theorem low_toUInt8 : (guid &&& 0xFF).toUInt8 = UInt8.ofNat guid.toNat := by
  apply UInt8.toNat_inj.mp
  rw [UInt64.toNat_toUInt8, low_toNat, UInt8.toNat_ofNat', Nat.mod_mod]

theorem low_eq_zero_iff : guid &&& 0xFF = 0 ↔ UInt8.ofNat guid.toNat = 0 := by
  rw [← UInt64.toNat_inj, ← UInt8.toNat_inj, low_toNat, UInt8.toNat_ofNat']
  rfl

theorem high_toNat : (guid >>> 8).toNat = guid.toNat / 256 := by
  rw [UInt64.toNat_shiftRight]
  exact Nat.shiftRight_eq_div_pow _ 8

theorem store_append (before : Bytes) (old value : UInt8) (after : Bytes) :
    store (before ++ old :: after) before.length value = .ok (before ++ value :: after) := by
  rw [store, if_pos (by simp), List.set_append_right _ _ le_rfl, Nat.sub_self, List.set_cons_zero]

def locals (m : Nat) (out free : Bytes) (i : Nat) (guid : UInt64) : Packing :=
  ⟨UInt8.ofNat m :: out ++ free, out.length + 1, UInt8.ofNat i, guid⟩

theorem keep_locals (hi : i < 8) (hm : m < 2 ^ i) : (locals m out (c :: free) i guid).keep =
    .ok (locals (m + 2 ^ i) (out ++ [UInt8.ofNat guid.toNat]) free i guid) := by
  have hread : (byteAt (UInt8.ofNat m :: out ++ c :: free) 0 : Result UInt8) =
      .ok (UInt8.ofNat m) := rfl
  have hfirst : store (UInt8.ofNat m :: out ++ c :: free) 0
      (UInt8.ofNat m ||| UInt8.ofNat (2 ^ i)) =
        .ok (UInt8.ofNat (m + 2 ^ i) :: out ++ c :: free) := by
    rw [mark_or hm]
    exact store_append [] _ _ _
  have hnext : store (UInt8.ofNat (m + 2 ^ i) :: out ++ c :: free) (out.length + 1)
      (guid &&& 0xFF).toUInt8 =
        .ok (UInt8.ofNat (m + 2 ^ i) :: (out ++ [UInt8.ofNat guid.toNat]) ++ free) := by
    rw [low_toUInt8]
    refine (store_append (UInt8.ofNat (m + 2 ^ i) :: out) c _ free).trans ?_
    rw [List.append_cons]
    rfl
  refine bind_eq_ok.mpr ⟨_, hread, bind_eq_ok.mpr ⟨_, bit_of_lt hi, bind_eq_ok.mpr
    ⟨_, hfirst, bind_eq_ok.mpr ⟨_, hnext, ?_⟩⟩⟩⟩
  have hlength : (out ++ [UInt8.ofNat guid.toNat]).length = out.length + 1 :=
    List.length_append
  change Except.ok _ = Except.ok (Packing.mk _ ((out ++ [UInt8.ofNat guid.toNat]).length + 1) _ _)
  rw [hlength]
  rfl

theorem body_locals_zero (h : UInt8.ofNat guid.toNat = 0) :
    (locals m out free i guid).body = .ok (locals m out free (i + 1) (guid >>> 8)) := by
  have hlow : (locals m out free i guid).guid &&& 0xFF = 0 := low_eq_zero_iff.mpr h
  rw [body, if_neg (not_not_intro hlow), locals, locals, UInt8.ofNat_add i 1]
  rfl

theorem body_locals_keep (hi : i < 8) (hm : m < 2 ^ i) (h : UInt8.ofNat guid.toNat ≠ 0) :
    (locals m out (c :: free) i guid).body = .ok (locals (m + 2 ^ i)
      (out ++ [UInt8.ofNat guid.toNat]) free (i + 1) (guid >>> 8)) := by
  have hlow : (locals m out (c :: free) i guid).guid &&& 0xFF ≠ 0 := fun hlow =>
    h (low_eq_zero_iff.mp hlow)
  rw [body, if_pos hlow, keep_locals hi hm, locals, locals, UInt8.ofNat_add i 1]
  rfl

theorem loop_of_zero {s : Packing} (hs : s.guid = 0) (fuel : Nat) :
    loop (fuel + 1) s = .ok s := by
  rw [loop, if_neg (not_not_intro hs)]
  rfl

theorem loop_of_ne {s t : Packing} (hs : s.guid ≠ 0) (hbody : s.body = .ok t) (fuel : Nat) :
    loop (fuel + 1) s = loop fuel t := by
  rw [loop, if_pos hs, hbody]
  rfl

theorem digits_zero (k : Nat) : Sparse.mask 0 (LittleEndian.toBytes k 0) = 0 ∧
    Sparse.kept 0 (LittleEndian.toBytes k 0) = [] := by
  induction k with
  | zero => exact ⟨rfl, rfl⟩
  | succ k ih =>
    obtain ⟨hmask, hkept⟩ := ih
    have hcons : LittleEndian.toBytes (k + 1) 0 = 0 :: LittleEndian.toBytes k 0 := rfl
    exact ⟨by rw [hcons, Sparse.mask_cons_zero, hmask], by rw [hcons, Sparse.kept_cons_zero, hkept]⟩

theorem loop_locals (out : Bytes) {k fuel : Nat} (hi : i + k = 8) (hm : m < 2 ^ i) (hguid : guid.toNat < 256 ^ k)
    (hfree : k ≤ free.length) (hfuel : k < fuel) :
    ∃ free' i' guid', loop fuel (locals m out free i guid) =
      .ok (locals (m + 2 ^ i * Sparse.mask 0 (LittleEndian.toBytes k guid.toNat))
        (out ++ Sparse.kept 0 (LittleEndian.toBytes k guid.toNat)) free' i' guid') := by
  -- the induction is on the number of bytes that can be left; the array has room for as many
  induction k generalizing i m out free guid fuel with
  | zero =>
    obtain ⟨fuel, rfl⟩ := Nat.exists_eq_add_one.mpr hfuel
    have hzero : guid = 0 := UInt64.toNat_inj.mp (Nat.lt_one_iff.mp hguid)
    refine ⟨free, i, guid, (loop_of_zero hzero fuel).trans ?_⟩
    rw [LittleEndian.toBytes, Sparse.mask, Sparse.kept, List.filter_nil, List.append_nil,
      Nat.mul_zero, Nat.add_zero]
  | succ k ih =>
    obtain ⟨fuel, rfl⟩ := Nat.exists_eq_add_one.mpr (Nat.zero_lt_of_lt hfuel)
    by_cases hzero : guid = 0
    · obtain ⟨hmask, hkept⟩ := digits_zero (k + 1)
      refine ⟨free, i, guid, (loop_of_zero hzero fuel).trans ?_⟩
      rw [hzero, UInt64.toNat_zero, hmask, hkept, List.append_nil, Nat.mul_zero, Nat.add_zero]
    · have hhigh : (guid >>> 8).toNat < 256 ^ k := by
        rw [high_toNat]
        exact Nat.div_lt_of_lt_mul (hguid.trans_eq (pow_succ' 256 k))
      have hdigits : LittleEndian.toBytes (k + 1) guid.toNat =
          UInt8.ofNat guid.toNat :: LittleEndian.toBytes k (guid >>> 8).toNat := by
        rw [high_toNat]
        rfl
      rw [hdigits]
      by_cases hbyte : UInt8.ofNat guid.toNat = 0
      · rw [hbyte, Sparse.mask_cons_zero, Sparse.kept_cons_zero]
        obtain ⟨free', i', guid', hloop⟩ := ih out (by omega)
          (hm.trans (Nat.pow_lt_pow_succ Nat.one_lt_two)) hhigh
          ((Nat.le_succ k).trans hfree) (Nat.lt_of_succ_lt_succ hfuel)
        refine ⟨free', i', guid', ((loop_of_ne hzero (body_locals_zero hbyte) fuel).trans
          hloop).trans ?_⟩
        rw [pow_succ, Nat.mul_assoc]
      · rw [Sparse.mask_cons hbyte, Sparse.kept_cons hbyte]
        obtain ⟨c, free, rfl⟩ := List.exists_cons_of_length_pos (Nat.zero_lt_of_lt hfree)
        have hmark : m + 2 ^ i < 2 ^ (i + 1) := by
          rw [pow_succ, Nat.mul_two]
          exact Nat.add_lt_add_right hm _
        obtain ⟨free', i', guid', hloop⟩ := ih
          (out ++ [UInt8.ofNat guid.toNat]) (by omega) hmark hhigh
          (Nat.le_of_succ_le_succ hfree) (Nat.lt_of_succ_lt_succ hfuel)
        refine ⟨free', i', guid', ((loop_of_ne hzero (body_locals_keep (by omega) hm hbyte)
          fuel).trans hloop).trans ?_⟩
        rw [List.append_assoc, List.singleton_append, pow_succ, Nat.mul_add, Nat.mul_assoc]
        rw [Nat.mul_one, Nat.add_assoc, Nat.add_comm (2 ^ i)]

end Packing

variable {b : ByteBuffer} {guid : UInt64}

theorem packed_length : (packed guid).length ≤ 9 := by
  have hkept : (Sparse.kept 0 (LittleEndian.toBytes 8 guid.toNat)).length ≤ 8 :=
    (List.length_filter_le _ _).trans_eq (LittleEndian.length_toBytes 8 _)
  exact Nat.succ_le_succ hkept

theorem appendPackGUID_eq (stack : Vector UInt8 9) {fuel : Nat} (hfuel : 8 < fuel) :
    b.appendPackGUID stack fuel guid = b.append (packed guid) := by
  have hstack : stack.toList.length = 8 + 1 := stack.length_toList
  obtain ⟨c, free, hfree⟩ := List.exists_cons_of_length_eq_add_one hstack
  rw [hfree] at hstack
  have hmask : Packing.store stack.toList 0 0 = .ok (0 :: free) := by
    rw [hfree]
    rfl
  obtain ⟨free', i', guid', hloop⟩ := Packing.loop_locals [] (Nat.zero_add 8) Nat.one_pos
    guid.toNat_lt (Nat.le_of_succ_le_succ hstack.ge) hfuel
  rw [List.nil_append, Nat.pow_zero, Nat.one_mul, Nat.zero_add] at hloop
  have hspan : (span (packed guid ++ free') 0 (packed guid).length : Result Bytes) =
      .ok (packed guid) := span_of_drop (n := 0) free' rfl (Nat.zero_add _)
  refine (bind_of_ok hmask _).trans ((bind_of_ok hloop _).trans ?_)
  exact bind_of_ok hspan b.append

/-! ## Reading -/

namespace Member
variable {c mark : UInt8} {cs ds used rest : Bytes} {i n : Nat}

theorem rpos_lt_size (h : b.storage.drop b.rpos = c :: cs) : b.rpos < b.size := by
  apply Nat.lt_of_sub_pos
  rw [size, ← List.length_drop, h]
  exact Nat.succ_pos _

theorem call_nextByte (hb : Addressable b) (h : b.storage.drop b.rpos = c :: cs) :
    nextByte.call b = (.ok c, { b with rpos := b.rpos + 1 }) := by
  have hlt := rpos_lt_size h
  have hadd : addSize b.rpos 1 = b.rpos + 1 := Nat.mod_eq_of_lt (Nat.lt_of_le_of_lt hlt hb.size_lt)
  have hcheck := call_checkRange (b := b) b.rpos 1
  rw [if_neg (Nat.not_lt.mpr (hadd.trans_le hlt))] at hcheck
  have hvalue : b.readAt 1 b.rpos = .ok [c] :=
    readAt_of_drop hb.size_lt hlt.le (h.trans List.singleton_append.symm) rfl
  have hread := call_readValue (b := b) 1
  rw [hvalue] at hread
  rw [nextByte, call_bind_ok call_get, call_bind_ok hcheck, call_bind_ok hread, ← hadd]
  have hbyte : Scalar.uint8.fixed.ofBytes [c] = c := by
    change UInt8.ofNat (c.toNat + 256 * 0) = c
    rw [Nat.mul_zero, Nat.add_zero, UInt8.ofNat_toNat]
  rw [hbyte]
  rfl

theorem call_nextByte_end (h : b.storage.drop b.rpos = []) :
    ∃ f, nextByte.call b = (.error f, b) := by
  have hge : b.size ≤ b.rpos := List.drop_eq_nil_iff.mp h
  have hcheck := call_checkRange (b := b) b.rpos 1
  rw [nextByte, call_bind_ok call_get]
  by_cases hlt : b.size < addSize b.rpos 1
  · rw [if_pos hlt] at hcheck
    exact ⟨_, call_bind_error hcheck⟩
  · -- the position is the last of the `size_t`, and the sum goes round to 0
    rw [if_neg hlt] at hcheck
    have hread := call_readValue (b := b) 1
    rw [ByteBuffer.readAt, if_neg hlt, span_outside Nat.one_pos (Nat.lt_succ_of_le hge)] at hread
    exact ⟨_, (call_bind_ok hcheck).trans (call_bind_error hread)⟩

theorem bit_ne_zero_iff : mark.toNat &&& 1 <<< i ≠ 0 ↔ mark.toNat / 2 ^ i % 2 ≠ 0 := by
  rw [Nat.shiftLeft_eq, Nat.one_mul, Nat.and_two_pow, Nat.testBit_eq_decide_div_mod_eq]
  rcases Nat.mod_two_eq_zero_or_one (mark.toNat / 2 ^ i) with h | h
  · rw [h]
    simp
  · rw [h]
    simp

theorem or_byte (hi : i < 8) (hguid : guid.toNat < 256 ^ i) :
    (guid ||| c.toUInt64 <<< UInt64.ofNat (i * 8)).toNat = guid.toNat + 256 ^ i * c.toNat := by
  have hpow : 256 ^ i = 2 ^ (i * 8) := by
    rw [Nat.mul_comm, pow_mul]
    rfl
  have hshift : (UInt64.ofNat (i * 8)).toNat % 64 = i * 8 := by
    rw [UInt64.toNat_ofNat']
    omega
  have hbyte : c.toNat * 2 ^ (i * 8) < 2 ^ 64 := by
    calc c.toNat * 2 ^ (i * 8) < 2 ^ 8 * 2 ^ (i * 8) :=
          Nat.mul_lt_mul_of_pos_right c.toNat_lt (Nat.two_pow_pos _)
      _ = 2 ^ (8 + i * 8) := (pow_add 2 8 _).symm
      _ ≤ 2 ^ 64 := Nat.pow_le_pow_right Nat.two_pos (by omega)
  rw [hpow] at hguid ⊢
  rw [UInt64.toNat_or, UInt64.toNat_shiftLeft, hshift, UInt8.toNat_toUInt64, Nat.shiftLeft_eq,
    Nat.mod_eq_of_lt hbyte, Nat.mul_comm c.toNat, Nat.or_comm,
    ← Nat.two_pow_add_eq_or_of_lt hguid, Nat.add_comm]

theorem behind (hb : Addressable b) (h : b.storage.drop b.rpos = c :: cs) :
    Addressable { b with rpos := b.rpos + 1 } ∧ b.storage.drop (b.rpos + 1) = cs := by
  refine ⟨⟨Nat.lt_of_le_of_lt (rpos_lt_size h) hb.size_lt, hb.size_lt⟩, ?_⟩
  rw [← List.drop_drop, h]
  rfl

theorem next_bit (m i : Nat) : m / 2 ^ i / 2 = m / 2 ^ (i + 1) := by
  rw [Nat.div_div_eq_div_mul, pow_succ]

theorem add_byte_lt (hguid : guid.toNat < 256 ^ i) :
    guid.toNat + 256 ^ i * c.toNat < 256 ^ (i + 1) := by
  calc guid.toNat + 256 ^ i * c.toNat < 256 ^ i + 256 ^ i * c.toNat :=
        Nat.add_lt_add_right hguid _
    _ = 256 ^ i * (c.toNat + 1) := by rw [Nat.mul_add, Nat.mul_one, Nat.add_comm]
    _ ≤ 256 ^ i * 256 := Nat.mul_le_mul_left _ c.toNat_lt
    _ = 256 ^ (i + 1) := (pow_succ 256 i).symm

theorem call_unpack (guid : UInt64) (hb : Addressable b) (hi : i + n = 8)
    (hguid : guid.toNat < 256 ^ i)
    (h : Sparse.expand 0 n (mark.toNat / 2 ^ i) (b.storage.drop b.rpos) = some (ds, rest))
    (hused : b.storage.drop b.rpos = used ++ rest) :
    (unpack mark n i guid).call b =
      (.ok (UInt64.ofNat (guid.toNat + 256 ^ i * LittleEndian.ofBytes ds)),
        { b with rpos := b.rpos + used.length }) := by
  -- the induction is on the bits of the mark that are left
  induction n generalizing i guid b ds used with
  | zero =>
    obtain ⟨rfl, hrest⟩ := Prod.mk.inj (Option.some.inj h)
    obtain rfl : used = [] := List.append_left_eq_self.mp (hused.symm.trans hrest)
    rw [LittleEndian.ofBytes, Nat.mul_zero, Nat.add_zero, UInt64.ofNat_toNat]
    rfl
  | succ n ih =>
    by_cases hbit : mark.toNat / 2 ^ i % 2 = 0
    · rw [Sparse.expand_even hbit, next_bit] at h
      obtain ⟨⟨ds', rest'⟩, hr, hds⟩ := Option.map_eq_some_iff.mp h
      obtain ⟨rfl, rfl⟩ := Prod.mk.inj hds
      have hlt : guid.toNat < 256 ^ (i + 1) := hguid.trans (Nat.pow_lt_pow_succ (by decide))
      rw [unpack, if_neg (fun hne => bit_ne_zero_iff.mp hne hbit), ih _ hb (by omega) hlt hr hused,
        LittleEndian.ofBytes, UInt8.toNat_zero, Nat.zero_add, pow_succ, Nat.mul_assoc]
    · rw [unpack, if_pos (bit_ne_zero_iff.mpr hbit)]
      rcases hsrc : b.storage.drop b.rpos with _ | ⟨c, cs⟩
      · rw [hsrc, Sparse.expand_odd_nil hbit] at h
        cases h
      · rw [hsrc, Sparse.expand_odd hbit, next_bit] at h
        obtain ⟨⟨ds', rest'⟩, hr, hds⟩ := Option.map_eq_some_iff.mp h
        obtain ⟨rfl, rfl⟩ := Prod.mk.inj hds
        obtain ⟨-, used', hcs, -⟩ := Sparse.expand_inv hr
        obtain rfl : used = c :: used' := by
          apply (List.append_left_inj rest').mp
          rw [← hused, hsrc, hcs]
          rfl
        obtain ⟨hb', hnext⟩ := behind hb hsrc
        have hor := or_byte (c := c) (by omega) hguid
        rw [call_bind_ok (call_nextByte hb hsrc), ih _ hb' (by omega)
          (hor.trans_lt (add_byte_lt hguid)) (hnext ▸ hr) (hnext.trans hcs), hor]
        rw [LittleEndian.ofBytes, List.length_cons, pow_succ, Nat.mul_add, Nat.mul_assoc,
          Nat.add_assoc, Nat.add_assoc, Nat.add_comm 1]

theorem call_unpack_refused (guid : UInt64) (hb : Addressable b)
    (h : Sparse.expand 0 n (mark.toNat / 2 ^ i) (b.storage.drop b.rpos) = none) :
    ∃ f b', (unpack mark n i guid).call b = (.error f, b') := by
  induction n generalizing i guid b with
  | zero => cases h
  | succ n ih =>
    by_cases hbit : mark.toNat / 2 ^ i % 2 = 0
    · rw [Sparse.expand_even hbit, next_bit] at h
      rw [unpack, if_neg (fun hne => bit_ne_zero_iff.mp hne hbit)]
      exact ih _ hb (Option.map_eq_none_iff.mp h)
    · rw [unpack, if_pos (bit_ne_zero_iff.mpr hbit)]
      rcases hsrc : b.storage.drop b.rpos with _ | ⟨c, cs⟩
      · obtain ⟨f, hf⟩ := call_nextByte_end hsrc
        exact ⟨f, b, call_bind_error hf⟩
      · rw [hsrc, Sparse.expand_odd hbit, next_bit] at h
        obtain ⟨hb', hnext⟩ := behind hb hsrc
        rw [call_bind_ok (call_nextByte hb hsrc)]
        exact ih _ hb' (hnext ▸ Option.map_eq_none_iff.mp h)

theorem call_readPackGUID (hb : Addressable b)
    (h : b.storage.drop b.rpos = packed guid ++ rest) :
    readPackGUID.call b = (.ok guid, { b with rpos := b.rpos + (packed guid).length }) := by
  have hlength := LittleEndian.length_toBytes 8 guid.toNat
  have hmask : (UInt8.ofNat (Sparse.mask 0 (LittleEndian.toBytes 8 guid.toNat))).toNat / 2 ^ 0 =
      Sparse.mask 0 (LittleEndian.toBytes 8 guid.toNat) := by
    have hlt := Sparse.mask_lt (z := 0) (LittleEndian.toBytes 8 guid.toNat)
    rw [hlength] at hlt
    rw [Nat.pow_zero, Nat.div_one, UInt8.toNat_ofNat', Nat.mod_eq_of_lt hlt]
  have hexpand := Sparse.expand_mask (z := 0) (LittleEndian.toBytes 8 guid.toNat) rest
  obtain ⟨hb', hnext⟩ : Addressable { b with rpos := b.rpos + 1 } ∧ b.storage.drop (b.rpos + 1) =
      Sparse.kept 0 (LittleEndian.toBytes 8 guid.toNat) ++ rest := behind hb h
  rw [hlength, ← hnext, ← hmask] at hexpand
  have hread := call_unpack 0 hb' (Nat.zero_add 8) Nat.one_pos hexpand hnext
  have hvalue : LittleEndian.ofBytes (LittleEndian.toBytes 8 guid.toNat) = guid.toNat :=
    (LittleEndian.ofBytes_toBytes 8 _).trans (Nat.mod_eq_of_lt guid.toNat_lt)
  rw [hvalue, UInt64.toNat_zero, Nat.zero_add, Nat.pow_zero, Nat.one_mul,
    UInt64.ofNat_toNat] at hread
  have hposition : b.rpos + 1 + (Sparse.kept 0 (LittleEndian.toBytes 8 guid.toNat)).length =
      b.rpos + (packed guid).length := by
    rw [Nat.add_assoc, Nat.add_comm 1]
    rfl
  rw [readPackGUID, call_bind_ok (call_nextByte hb h), hread, hposition]

theorem packed_le_of_readPackGUID {b' : ByteBuffer} (hb : Addressable b)
    (h : readPackGUID.call b = (.ok guid, b')) : b.rpos + (packed guid).length ≤ b'.rpos := by
  rcases hsrc : b.storage.drop b.rpos with _ | ⟨mark, src⟩
  · obtain ⟨f, hf⟩ := call_nextByte_end hsrc
    have herror := h.symm.trans (call_bind_error hf)
    cases (Prod.mk.inj herror).1
  · obtain ⟨hb', hnext⟩ := behind hb hsrc
    rw [readPackGUID, call_bind_ok (call_nextByte hb hsrc)] at h
    rcases hexpand : Sparse.expand 0 8 (mark.toNat / 2 ^ 0) src with _ | ⟨ds, rest⟩
    · obtain ⟨f, b'', hf⟩ := call_unpack_refused 0 hb' (hnext ▸ hexpand)
      cases (Prod.mk.inj (h.symm.trans hf)).1
    · obtain ⟨hlength, used, hused, hkept⟩ := Sparse.expand_inv hexpand
      have hread := call_unpack 0 hb' (Nat.zero_add 8) Nat.one_pos (hnext ▸ hexpand)
        (hnext.trans hused)
      obtain ⟨hguid, rfl⟩ := Prod.mk.inj (h.symm.trans hread)
      have hdigits : LittleEndian.toBytes 8 guid.toNat = ds := by
        have hlt : LittleEndian.ofBytes ds < 2 ^ 64 := by
          have hds := LittleEndian.ofBytes_lt ds
          rwa [hlength] at hds
        rw [Except.ok.inj hguid, UInt64.toNat_zero, Nat.zero_add, Nat.pow_zero, Nat.one_mul,
          UInt64.toNat_ofNat', Nat.mod_eq_of_lt hlt, ← hlength, LittleEndian.toBytes_ofBytes]
      rw [packed, hdigits, hkept, List.length_cons, Nat.add_comm _ 1, ← Nat.add_assoc]
      exact Nat.add_le_add_left (List.length_filter_le _ _) _

end Member
/-- A GUID is packed as a mask and one byte for each of its bits, inside the array on the stack,
and read back from there; and no encoding that is accepted for it is shorter. -/
theorem packGUID_round_trip (guid : UInt64) :
    ∃ (guidmark : UInt8) (bytes : Bytes),
      bytes.length = (List.range 8).countP guidmark.toNat.testBit ∧ bytes.length + 1 ≤ 9 ∧
      (∀ (b : ByteBuffer) (stack : Vector UInt8 9) (fuel : Nat),
        b.wpos ≤ b.size → b.size < 10000000 → 8 < fuel →
        b.appendPackGUID stack fuel guid = .ok ⟨b.rpos, b.wpos + (bytes.length + 1),
          b.storage.take b.wpos ++ (guidmark :: bytes) ++
            b.storage.drop (b.wpos + (bytes.length + 1))⟩) ∧
      (∀ (before rest : Bytes) (w : Nat),
        (before ++ (guidmark :: bytes) ++ rest).length < 2 ^ 64 →
        Member.readPackGUID.call ⟨before.length, w, before ++ (guidmark :: bytes) ++ rest⟩ =
          (.ok guid, ⟨before.length + (bytes.length + 1), w,
            before ++ (guidmark :: bytes) ++ rest⟩)) ∧
      ∀ b b' : ByteBuffer, Addressable b → Member.readPackGUID.call b = (.ok guid, b') →
        b.rpos + (bytes.length + 1) ≤ b'.rpos := by
  have hlength := LittleEndian.length_toBytes 8 guid.toNat
  have hmask : (UInt8.ofNat (Sparse.mask 0 (LittleEndian.toBytes 8 guid.toNat))).toNat =
      Sparse.mask 0 (LittleEndian.toBytes 8 guid.toNat) := by
    have hlt := Sparse.mask_lt (z := 0) (LittleEndian.toBytes 8 guid.toNat)
    rw [hlength] at hlt
    rw [UInt8.toNat_ofNat', Nat.mod_eq_of_lt hlt]
  refine ⟨UInt8.ofNat (Sparse.mask 0 (LittleEndian.toBytes 8 guid.toNat)),
    Sparse.kept 0 (LittleEndian.toBytes 8 guid.toNat), ?_, packed_length, ?_, ?_, ?_⟩
  · rw [hmask, Sparse.length_kept, hlength]
  · intro b stack fuel hw hsize hfuel
    rw [appendPackGUID_eq stack hfuel]
    exact append_eq hw (List.cons_ne_nil _ _) hsize
  · intro before rest w hsize
    have hb : Addressable ⟨before.length, w, before ++ packed guid ++ rest⟩ := by
      refine ⟨Nat.lt_of_le_of_lt ?_ hsize, hsize⟩
      rw [List.length_append, List.length_append, Nat.add_assoc]
      exact Nat.le_add_right _ _
    have hdrop : (before ++ packed guid ++ rest).drop before.length = packed guid ++ rest := by
      rw [List.append_assoc, List.drop_left]
    exact Member.call_readPackGUID hb hdrop
  · intro b b' hb hread
    exact Member.packed_le_of_readPackGUID hb hread

theorem packGUID_round_trip_sparse : ∃ (guidmark : UInt8) (bytes : Bytes),
    bytes.length = (List.range 8).countP guidmark.toNat.testBit ∧
    new.appendPackGUID (Vector.replicate 9 7) 9 0xAB00000000000100 =
      .ok ⟨0, bytes.length + 1, guidmark :: bytes⟩ := by
  obtain ⟨guidmark, bytes, hcount, -, happend, -, -⟩ := packGUID_round_trip 0xAB00000000000100
  refine ⟨guidmark, bytes, hcount, ?_⟩
  have hnew := happend new (Vector.replicate 9 7) 9 le_rfl (by decide) (by decide)
  rw [hnew, new, List.take_nil, List.drop_nil, List.nil_append, List.append_nil, Nat.zero_add]

/-- Nothing is appended to a buffer that the assertion on the size holds back. -/
theorem appendPackGUID_aborts : ¬ ∀ (b : ByteBuffer) (stack : Vector UInt8 9) (fuel : Nat)
    (guid : UInt64), b.wpos ≤ b.size → 8 < fuel →
      ∃ written, b.appendPackGUID stack fuel guid = .ok written := by
  intro h
  have hsize : (List.replicate 10000000 (0 : UInt8)).length = 10000000 := List.length_replicate
  obtain ⟨written, hwritten⟩ := h ⟨0, 10000000, List.replicate 10000000 0⟩ (Vector.replicate 9 0) 9
    0 hsize.ge (by decide)
  have haborted := append_full (b := ⟨0, 10000000, List.replicate 10000000 0⟩) hsize.ge (packed 0)
  rw [appendPackGUID_eq _ (by decide), haborted] at hwritten
  cases hwritten

end ByteBuffer
end Warhead
