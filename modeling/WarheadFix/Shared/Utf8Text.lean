import WarheadFix.Shared.TypedValues

/-! The texts that `ReadCString` lets through. The validation accepts the bytes that encode a
sequence of characters, and no others; so a text is read from a buffer if and only if what
stands there is the encoding of one without a zero, up to a zero or the end of the buffer. -/

namespace Warhead
open Lib

namespace Utf8

def encoded (text : List Char) : Bytes := text.flatMap String.utf8EncodeChar

def octets (cp : Nat) : Bytes :=
  if cp < 0x80 then [UInt8.ofNat cp]
  else if cp < 0x800 then [UInt8.ofNat (cp / 64 + 0xc0), UInt8.ofNat (cp % 64 + 0x80)]
  else if cp < 0x10000 then
    [UInt8.ofNat (cp / 4096 + 0xe0), UInt8.ofNat (cp / 64 % 64 + 0x80), UInt8.ofNat (cp % 64 + 0x80)]
  else
    [UInt8.ofNat (cp / 262144 + 0xf0), UInt8.ofNat (cp / 4096 % 64 + 0x80),
      UInt8.ofNat (cp / 64 % 64 + 0x80), UInt8.ofNat (cp % 64 + 0x80)]

theorem utf8EncodeChar_eq (c : Char) : String.utf8EncodeChar c = octets c.val.toNat := by
  have hlt : c.val.toNat < 0x110000 := by
    rcases c.valid with h | ⟨-, h⟩
    · exact h.trans (by decide)
    · exact h
  unfold String.utf8EncodeChar octets
  dsimp only
  split_ifs <;> first | rfl | omega | skip
  · rw [Nat.mod_eq_of_lt (show c.val.toNat / 64 < 32 by omega)]
  · rw [Nat.mod_eq_of_lt (show c.val.toNat / 4096 < 16 by omega)]
  · rw [Nat.mod_eq_of_lt (show c.val.toNat / 262144 < 8 by omega)]

section Octets
variable {a b c d : UInt8}

theorem isTrail_iff : isTrail b = true ↔ 128 ≤ b.toNat ∧ b.toNat < 192 := by
  have hall : ∀ n < 256, isTrail (UInt8.ofNat n) = true ↔ 128 ≤ n ∧ n < 192 := by decide +kernel
  have hb := hall b.toNat b.toNat_lt
  rwa [UInt8.ofNat_toNat] at hb

theorem sequenceLength_eq (a : UInt8) : sequenceLength a =
    if a.toNat < 128 then 1 else if a.toNat < 192 then 0 else if a.toNat < 224 then 2
    else if a.toNat < 240 then 3 else if a.toNat < 248 then 4 else 0 := by
  have hall : ∀ n < 256, sequenceLength (UInt8.ofNat n) =
      if n < 128 then 1 else if n < 192 then 0 else if n < 224 then 2
      else if n < 240 then 3 else if n < 248 then 4 else 0 := by decide +kernel
  have ha := hall a.toNat a.toNat_lt
  rwa [UInt8.ofNat_toNat] at ha

theorem low_bits (n k : Nat) : n &&& (2 ^ k - 1) = n % 2 ^ k := Nat.and_two_pow_sub_one_eq_mod n k

theorem codePoint2_eq (a b : UInt8) :
    codePoint2 a b = a.toNat * 64 % 2048 + b.toNat % 64 := by
  unfold codePoint2
  rw [Nat.shiftLeft_eq]
  exact congrArg₂ (· + ·) (low_bits _ 11) (low_bits _ 6)

theorem codePoint3_eq (a b c : UInt8) : codePoint3 a b c =
    a.toNat * 4096 % 65536 + b.toNat * 64 % 4096 + c.toNat % 64 := by
  unfold codePoint3
  rw [Nat.shiftLeft_eq, Nat.shiftLeft_eq]
  exact congrArg₂ (· + ·) (congrArg₂ (· + ·) (low_bits _ 16) (low_bits _ 12)) (low_bits _ 6)

theorem codePoint4_eq (a b c d : UInt8) : codePoint4 a b c d =
    a.toNat * 262144 % 2097152 + b.toNat * 4096 % 262144 + c.toNat * 64 % 4096 + d.toNat % 64 := by
  unfold codePoint4
  rw [Nat.shiftLeft_eq, Nat.shiftLeft_eq, Nat.shiftLeft_eq]
  exact congrArg₂ (· + ·) (congrArg₂ (· + ·) (congrArg₂ (· + ·) (low_bits _ 21) (low_bits _ 18))
    (low_bits _ 12)) (low_bits _ 6)

theorem accepts_iff {cp length : Nat} : accepts cp length = true ↔
    cp.isValidChar ∧ isOverlongSequence cp length = false := by
  simp [accepts, isCodePointValid, isSurrogate, Nat.isValidChar]
  omega

/-! ## Sequences -/

variable {t : Bytes} {cp : Nat}

theorem isValid_cons (a : UInt8) (t : Bytes) : isValid (a :: t) =
    match sequenceLength a, t with
    | 1, t => accepts a.toNat 1 && isValid t
    | 2, b :: t => isTrail b && accepts (codePoint2 a b) 2 && isValid t
    | 3, b :: c :: t => isTrail b && isTrail c && accepts (codePoint3 a b c) 3 && isValid t
    | 4, b :: c :: d :: t =>
      isTrail b && isTrail c && isTrail d && accepts (codePoint4 a b c d) 4 && isValid t
    | _, _ => false := by
  exact isValid.eq_def (a :: t)

theorem isValid_of_length2 (h : sequenceLength a = 2) :
    isValid (a :: b :: t) = (isTrail b && accepts (codePoint2 a b) 2 && isValid t) := by
  rw [isValid_cons, h]
  rfl

theorem isValid_of_length3 (h : sequenceLength a = 3) :
    isValid (a :: b :: c :: t) =
      (isTrail b && isTrail c && accepts (codePoint3 a b c) 3 && isValid t) := by
  rw [isValid_cons, h]
  rfl

theorem isValid_of_length4 (h : sequenceLength a = 4) :
    isValid (a :: b :: c :: d :: t) =
      (isTrail b && isTrail c && isTrail d && accepts (codePoint4 a b c d) 4 && isValid t) := by
  rw [isValid_cons, h]
  rfl

theorem isValid_lead (h : a.toNat < 128) : isValid (a :: t) = isValid t := by
  have hlength : sequenceLength a = 1 := by rw [sequenceLength_eq, if_pos h]
  have haccepts : accepts a.toNat 1 = true := by
    refine accepts_iff.mpr ⟨.inl (by omega), ?_⟩
    rw [isOverlongSequence, if_pos h]
    rfl
  rw [isValid_cons, hlength]
  exact (congrArg (· && isValid t) haccepts).trans (Bool.true_and _)

theorem isValid_pair_iff (ha : 192 ≤ a.toNat) (ha' : a.toNat < 224) :
    isValid (a :: t) = true ↔ ∃ b u, t = b :: u ∧ (128 ≤ b.toNat ∧ b.toNat < 192) ∧
      (0x80 ≤ (a.toNat - 192) * 64 + (b.toNat - 128)) ∧ isValid u = true := by
  have hlength : sequenceLength a = 2 := by
    rw [sequenceLength_eq, if_neg (by omega), if_neg (by omega), if_pos ha']
  cases t with
  | nil =>
    rw [isValid_cons, hlength]
    exact ⟨fun h => absurd h Bool.false_ne_true, fun ⟨_, _, h, _⟩ => (nomatch h)⟩
  | cons b u =>
    rw [isValid_of_length2 hlength]
    rw [Bool.and_eq_true, Bool.and_eq_true, isTrail_iff, accepts_iff, codePoint2_eq]
    have hoverlong : 128 ≤ b.toNat ∧ b.toNat < 192 →
        ((a.toNat * 64 % 2048 + b.toNat % 64).isValidChar ∧
          isOverlongSequence (a.toNat * 64 % 2048 + b.toNat % 64) 2 = false ↔
        0x80 ≤ (a.toNat - 192) * 64 + (b.toNat - 128)) := by
      intro hb
      rw [show a.toNat * 64 % 2048 + b.toNat % 64 = (a.toNat - 192) * 64 + (b.toNat - 128) by omega,
        isOverlongSequence]
      unfold Nat.isValidChar
      split_ifs <;> simp <;> omega
    constructor
    · rintro ⟨⟨hb, hcp⟩, hu⟩
      exact ⟨b, u, rfl, hb, (hoverlong hb).mp hcp, hu⟩
    · rintro ⟨b', u', h, hb, hcp, hu⟩
      cases h
      exact ⟨⟨hb, (hoverlong hb).mpr hcp⟩, hu⟩

theorem isValid_triple_iff (ha : 224 ≤ a.toNat) (ha' : a.toNat < 240) :
    isValid (a :: t) = true ↔ ∃ b c u, t = b :: c :: u ∧ (128 ≤ b.toNat ∧ b.toNat < 192) ∧
      (128 ≤ c.toNat ∧ c.toNat < 192) ∧
      (0x800 ≤ (a.toNat - 224) * 4096 + (b.toNat - 128) * 64 + (c.toNat - 128) ∧
        ((a.toNat - 224) * 4096 + (b.toNat - 128) * 64 + (c.toNat - 128)).isValidChar) ∧
      isValid u = true := by
  have hlength : sequenceLength a = 3 := by
    rw [sequenceLength_eq, if_neg (by omega), if_neg (by omega), if_neg (by omega), if_pos ha']
  match t with
  | [] | [_] =>
    rw [isValid_cons, hlength]
    exact ⟨fun h => absurd h Bool.false_ne_true, fun ⟨_, _, _, h, _⟩ => (nomatch h)⟩
  | b :: c :: u =>
    rw [isValid_of_length3 hlength]
    rw [Bool.and_eq_true, Bool.and_eq_true, Bool.and_eq_true, isTrail_iff, isTrail_iff, accepts_iff,
      codePoint3_eq]
    have hoverlong : 128 ≤ b.toNat ∧ b.toNat < 192 → 128 ≤ c.toNat ∧ c.toNat < 192 →
        ((a.toNat * 4096 % 65536 + b.toNat * 64 % 4096 + c.toNat % 64).isValidChar ∧
          isOverlongSequence (a.toNat * 4096 % 65536 + b.toNat * 64 % 4096 + c.toNat % 64) 3 =
            false ↔
        0x800 ≤ (a.toNat - 224) * 4096 + (b.toNat - 128) * 64 + (c.toNat - 128) ∧
          ((a.toNat - 224) * 4096 + (b.toNat - 128) * 64 + (c.toNat - 128)).isValidChar) := by
      intro hb hc
      rw [show a.toNat * 4096 % 65536 + b.toNat * 64 % 4096 + c.toNat % 64 =
        (a.toNat - 224) * 4096 + (b.toNat - 128) * 64 + (c.toNat - 128) by omega,
        isOverlongSequence]
      split_ifs <;> simp <;> omega
    constructor
    · rintro ⟨⟨⟨hb, hc⟩, hcp⟩, hu⟩
      exact ⟨b, c, u, rfl, hb, hc, (hoverlong hb hc).mp hcp, hu⟩
    · rintro ⟨b', c', u', h, hb, hc, hcp, hu⟩
      cases h
      exact ⟨⟨⟨hb, hc⟩, (hoverlong hb hc).mpr hcp⟩, hu⟩

theorem isValid_quad_iff (ha : 240 ≤ a.toNat) (ha' : a.toNat < 248) :
    isValid (a :: t) = true ↔ ∃ b c d u, t = b :: c :: d :: u ∧
      (128 ≤ b.toNat ∧ b.toNat < 192) ∧ (128 ≤ c.toNat ∧ c.toNat < 192) ∧
      (128 ≤ d.toNat ∧ d.toNat < 192) ∧
      (0x10000 ≤ (a.toNat - 240) * 262144 + (b.toNat - 128) * 4096 + (c.toNat - 128) * 64 +
          (d.toNat - 128) ∧
        (a.toNat - 240) * 262144 + (b.toNat - 128) * 4096 + (c.toNat - 128) * 64 +
          (d.toNat - 128) < 0x110000) ∧
      isValid u = true := by
  have hlength : sequenceLength a = 4 := by
    rw [sequenceLength_eq, if_neg (by omega), if_neg (by omega), if_neg (by omega),
      if_neg (by omega), if_pos ha']
  match t with
  | [] | [_] | [_, _] =>
    rw [isValid_cons, hlength]
    exact ⟨fun h => absurd h Bool.false_ne_true, fun ⟨_, _, _, _, h, _⟩ => (nomatch h)⟩
  | b :: c :: d :: u =>
    rw [isValid_of_length4 hlength]
    rw [Bool.and_eq_true, Bool.and_eq_true, Bool.and_eq_true, Bool.and_eq_true, isTrail_iff,
      isTrail_iff, isTrail_iff, accepts_iff, codePoint4_eq]
    have hoverlong : 128 ≤ b.toNat ∧ b.toNat < 192 → 128 ≤ c.toNat ∧ c.toNat < 192 →
        128 ≤ d.toNat ∧ d.toNat < 192 →
        ((a.toNat * 262144 % 2097152 + b.toNat * 4096 % 262144 + c.toNat * 64 % 4096 +
            d.toNat % 64).isValidChar ∧
          isOverlongSequence (a.toNat * 262144 % 2097152 + b.toNat * 4096 % 262144 +
            c.toNat * 64 % 4096 + d.toNat % 64) 4 = false ↔
        0x10000 ≤ (a.toNat - 240) * 262144 + (b.toNat - 128) * 4096 + (c.toNat - 128) * 64 +
            (d.toNat - 128) ∧
          (a.toNat - 240) * 262144 + (b.toNat - 128) * 4096 + (c.toNat - 128) * 64 +
            (d.toNat - 128) < 0x110000) := by
      intro hb hc hd
      rw [show a.toNat * 262144 % 2097152 + b.toNat * 4096 % 262144 + c.toNat * 64 % 4096 +
        d.toNat % 64 = (a.toNat - 240) * 262144 + (b.toNat - 128) * 4096 +
          (c.toNat - 128) * 64 + (d.toNat - 128) by omega, isOverlongSequence]
      unfold Nat.isValidChar
      split_ifs <;> simp <;> omega
    constructor
    · rintro ⟨⟨⟨⟨hb, hc⟩, hd⟩, hcp⟩, hu⟩
      exact ⟨b, c, d, u, rfl, hb, hc, hd, (hoverlong hb hc hd).mp hcp, hu⟩
    · rintro ⟨b', c', d', u', h, hb, hc, hd, hcp, hu⟩
      cases h
      exact ⟨⟨⟨⟨hb, hc⟩, hd⟩, (hoverlong hb hc hd).mpr hcp⟩, hu⟩

theorem not_isValid (h : 128 ≤ a.toNat ∧ a.toNat < 192 ∨ 248 ≤ a.toNat) :
    isValid (a :: t) = false := by
  have hlength : sequenceLength a = 0 := by
    rw [sequenceLength_eq]
    split_ifs <;> omega
  rw [isValid_cons, hlength]
  rfl

theorem toNat_ofNat_of_lt {n : Nat} (h : n < 256) : (UInt8.ofNat n).toNat = n :=
  Nat.mod_eq_of_lt h

theorem octets_of_isValid (h : isValid (a :: t) = true) :
    ∃ cp u, cp.isValidChar ∧ a :: t = octets cp ++ u ∧ isValid u = true := by
  have hself (x : UInt8) {n : Nat} (hx : n = x.toNat) : UInt8.ofNat n = x := by
    rw [hx, UInt8.ofNat_toNat]
  by_cases h1 : a.toNat < 128
  · refine ⟨a.toNat, t, .inl (by omega), ?_, (isValid_lead h1).symm.trans h⟩
    rw [octets, if_pos h1, UInt8.ofNat_toNat]
    rfl
  by_cases h2 : a.toNat < 192
  · exact absurd ((not_isValid (.inl ⟨by omega, h2⟩)).symm.trans h) Bool.false_ne_true
  by_cases h3 : a.toNat < 224
  · obtain ⟨b, u, rfl, hb, hcp, hu⟩ := (isValid_pair_iff (by omega) h3).mp h
    refine ⟨(a.toNat - 192) * 64 + (b.toNat - 128), u, .inl (by omega), ?_, hu⟩
    rw [octets, if_neg (by omega), if_pos (by omega), hself a (by omega), hself b (by omega)]
    rfl
  by_cases h4 : a.toNat < 240
  · obtain ⟨b, c, u, rfl, hb, hc, ⟨hcp, hvalid⟩, hu⟩ := (isValid_triple_iff (by omega) h4).mp h
    refine ⟨_, u, hvalid, ?_, hu⟩
    rw [octets, if_neg (by omega), if_neg (by omega), if_pos (by omega), hself a (by omega),
      hself b (by omega), hself c (by omega)]
    rfl
  by_cases h5 : a.toNat < 248
  · obtain ⟨b, c, d, u, rfl, hb, hc, hd, ⟨hcp, hlt⟩, hu⟩ := (isValid_quad_iff (by omega) h5).mp h
    refine ⟨_, u, .inr ⟨by omega, hlt⟩, ?_, hu⟩
    rw [octets, if_neg (by omega), if_neg (by omega), if_neg (by omega), hself a (by omega),
      hself b (by omega), hself c (by omega), hself d (by omega)]
    rfl
  · exact absurd ((not_isValid (.inr (by omega))).symm.trans h) Bool.false_ne_true

theorem isValid_octets (h : cp.isValidChar) (u : Bytes) :
    isValid (octets cp ++ u) = isValid u := by
  have hmax : cp < 0x110000 := by
    rcases h with h | ⟨-, h⟩
    · omega
    · exact h
  apply Bool.eq_iff_iff.mpr
  unfold octets
  split_ifs with h1 h2 h3
  · exact Bool.eq_iff_iff.mp (isValid_lead ((toNat_ofNat_of_lt (by omega)).trans_lt h1))
  · have ha := toNat_ofNat_of_lt (n := cp / 64 + 0xc0) (by omega)
    have hb := toNat_ofNat_of_lt (n := cp % 64 + 0x80) (by omega)
    refine (isValid_pair_iff (by omega) (by omega)).trans ⟨?_, fun hu => ?_⟩
    · rintro ⟨_, v, h, -, -, hu⟩
      obtain rfl : u = v := (List.cons.inj h).2
      exact hu
    · exact ⟨_, u, rfl, by omega, by omega, hu⟩
  · have ha := toNat_ofNat_of_lt (n := cp / 4096 + 0xe0) (by omega)
    have hb := toNat_ofNat_of_lt (n := cp / 64 % 64 + 0x80) (by omega)
    have hc := toNat_ofNat_of_lt (n := cp % 64 + 0x80) (by omega)
    refine (isValid_triple_iff (by omega) (by omega)).trans ⟨?_, fun hu => ?_⟩
    · rintro ⟨_, _, v, h, -, -, -, hu⟩
      obtain rfl : u = v := (List.cons.inj (List.cons.inj h).2).2
      exact hu
    · refine ⟨_, _, u, rfl, by omega, by omega, ?_, hu⟩
      rw [ha, hb, hc, show (cp / 4096 + 0xe0 - 224) * 4096 + (cp / 64 % 64 + 0x80 - 128) * 64 +
        (cp % 64 + 0x80 - 128) = cp by omega]
      exact ⟨by omega, h⟩
  · have ha := toNat_ofNat_of_lt (n := cp / 262144 + 0xf0) (by omega)
    have hb := toNat_ofNat_of_lt (n := cp / 4096 % 64 + 0x80) (by omega)
    have hc := toNat_ofNat_of_lt (n := cp / 64 % 64 + 0x80) (by omega)
    have hd := toNat_ofNat_of_lt (n := cp % 64 + 0x80) (by omega)
    refine (isValid_quad_iff (by omega) (by omega)).trans ⟨?_, fun hu => ?_⟩
    · rintro ⟨_, _, _, v, h, -, -, -, -, hu⟩
      obtain rfl : u = v := (List.cons.inj (List.cons.inj (List.cons.inj h).2).2).2
      exact hu
    · exact ⟨_, _, _, u, rfl, by omega, by omega, by omega, by omega, hu⟩

end Octets

/-! ## Texts -/

section Texts
variable {s : Bytes} {text : List Char}

theorem encoded_cons (c : Char) (text : List Char) :
    encoded (c :: text) = octets c.val.toNat ++ encoded text := by
  rw [encoded, List.flatMap_cons, utf8EncodeChar_eq]
  rfl

theorem length_octets_pos (cp : Nat) : 0 < (octets cp).length := by
  unfold octets
  split_ifs <;> exact Nat.succ_pos _

theorem isValid_encoded (text : List Char) : isValid (encoded text) = true := by
  induction text with
  | nil => rfl
  | cons c text ih => rw [encoded_cons, isValid_octets c.valid, ih]

theorem exists_encoded (h : isValid s = true) : ∃ text, s = encoded text := by
  -- each sequence that is accepted takes the scan on
  induction hn : s.length using Nat.strong_induction_on generalizing s with
  | _ n ih =>
    cases s with
    | nil => exact ⟨[], rfl⟩
    | cons a t =>
      obtain ⟨cp, u, hvalid, hsplit, hu⟩ := octets_of_isValid h
      have hlt : u.length < n := by
        have hlength := congrArg List.length hsplit
        have hpos := length_octets_pos cp
        rw [List.length_append] at hlength
        omega
      obtain ⟨text, rfl⟩ := ih u.length hlt hu rfl
      refine ⟨Char.ofNatAux cp hvalid :: text, ?_⟩
      rw [encoded_cons]
      exact hsplit

theorem isValid_iff : isValid s = true ↔ ∃ text, s = encoded text :=
  ⟨exists_encoded, fun ⟨text, h⟩ => h ▸ isValid_encoded text⟩

theorem encoded_injective : Function.Injective encoded := by
  intro text other h
  have hbytes : text.utf8Encode = other.utf8Encode := congrArg List.toByteArray h
  have hstring : String.ofList text = String.ofList other :=
    String.toByteArray_inj.mp (by simpa using hbytes)
  exact String.ofList_injective hstring

theorem zero_mem_octets {cp : Nat} (h : cp < 0x110000) : 0 ∈ octets cp ↔ cp = 0 := by
  have hzero {n : Nat} (hn : n < 256) : (0 : UInt8) = UInt8.ofNat n ↔ n = 0 := by
    constructor
    · intro h0
      have hnat := congrArg UInt8.toNat h0
      rw [toNat_ofNat_of_lt hn] at hnat
      exact hnat.symm
    · rintro rfl
      rfl
  unfold octets
  split_ifs with h1 h2 h3 <;>
    simp only [List.mem_cons, List.not_mem_nil, or_false]
  · rw [hzero (by omega)]
  · rw [hzero (by omega), hzero (by omega)]
    omega
  · rw [hzero (by omega), hzero (by omega), hzero (by omega)]
    omega
  · rw [hzero (by omega), hzero (by omega), hzero (by omega), hzero (by omega)]
    omega

theorem zero_mem_encoded : 0 ∈ encoded text ↔ Char.ofNat 0 ∈ text := by
  induction text with
  | nil => simp [encoded]
  | cons c text ih =>
    have hlt : c.val.toNat < 0x110000 := by
      rcases c.valid with h | ⟨-, h⟩
      · exact h.trans (by decide)
      · exact h
    rw [encoded_cons, List.mem_append, List.mem_cons, ih, zero_mem_octets hlt]
    have hchar : c.val.toNat = 0 ↔ Char.ofNat 0 = c := by
      rw [eq_comm, ← Char.toNat_inj]
      rfl
    rw [hchar]

end Texts
end Utf8

namespace ByteBuffer
open Utf8

section Reading
variable {b c : ByteBuffer} {value l : Bytes} {text : List Char}

theorem readable_iff : (Value.string value).Readable ↔
    ∃ text, Char.ofNat 0 ∉ text ∧ value = encoded text := by
  constructor
  · rintro ⟨hzero, hvalid⟩
    obtain ⟨text, rfl⟩ := isValid_iff.mp hvalid
    exact ⟨text, fun h => hzero (zero_mem_encoded.mpr h), rfl⟩
  · rintro ⟨text, hzero, rfl⟩
    exact ⟨fun h => hzero (zero_mem_encoded.mp h), isValid_encoded text⟩

/-- The string that stands at the read position, up to a zero or to the end, and the buffer
behind it. -/
inductive CString (b : ByteBuffer) (value : Bytes) : ByteBuffer → Prop where
  | terminated {rest : Bytes} (hzero : 0 ∉ value)
      (h : b.storage.drop b.rpos = value ++ 0 :: rest) :
      CString b value { b with rpos := b.rpos + (value.length + 1) }
  | unterminated (hzero : 0 ∉ value) (h : b.storage.drop b.rpos = value) :
      CString b value { b with rpos := b.rpos + value.length }

theorem takeCString_of_unterminated (h : 0 ∉ l) : takeCString l = (l, l.length) := by
  induction l with
  | nil => rfl
  | cons c l ih =>
    rw [List.mem_cons, not_or] at h
    rw [takeCString, if_neg (Ne.symm h.1), ih h.2]
    rfl

theorem CString.take (h : b.CString value c) : (takeCString (b.storage.drop b.rpos)).1 = value ∧
    { b with rpos := b.rpos + (takeCString (b.storage.drop b.rpos)).2 } = c := by
  cases h with
  | terminated hzero h =>
    rw [h, takeCString_of_terminated hzero]
    exact ⟨rfl, rfl⟩
  | unterminated hzero h =>
    rw [h, takeCString_of_unterminated hzero]
    exact ⟨rfl, rfl⟩

theorem exists_cString (b : ByteBuffer) : ∃ value c, b.CString value c := by
  by_cases hzero : 0 ∈ b.storage.drop b.rpos
  · obtain ⟨value, rest, hsplit, hnot⟩ := List.eq_append_cons_of_mem hzero
    exact ⟨value, _, .terminated hnot hsplit⟩
  · exact ⟨_, _, .unterminated hzero rfl⟩

/-- `ReadCString` reads the string if and only if it encodes a text, of which there is one then,
and throws its bytes otherwise. -/
theorem readCString_iff (b : ByteBuffer) :
    (∀ value c, b.readCString = .ok (value, c) ↔
      b.CString value c ∧ ∃! text, value = encoded text) ∧
    ∀ f, b.readCString = .error f ↔ ∃ value c, b.CString value c ∧
      (∀ text, value ≠ encoded text) ∧ f = .thrown (.invalidValue "string" value) := by
  obtain ⟨value, c, hread⟩ := b.exists_cString
  obtain ⟨hvalue, hc⟩ := hread.take
  have hsame {value' : Bytes} {c' : ByteBuffer} (h : b.CString value' c') :
      value' = value ∧ c' = c := ⟨h.take.1.symm.trans hvalue, h.take.2.symm.trans hc⟩
  by_cases hvalid : Utf8.isValid value = true
  · obtain ⟨text, htext⟩ := isValid_iff.mp hvalid
    have hunique : ∃! text, value = encoded text :=
      ⟨text, htext, fun other hother => encoded_injective (hother.symm.trans htext)⟩
    have hok : b.readCString = .ok (value, c) := by
      rw [readCString_of_valid (hvalue ▸ hvalid), hvalue, hc]
    rw [hok]
    constructor
    · intro value' c'
      constructor
      · intro h
        obtain ⟨rfl, rfl⟩ := Prod.mk.inj (Except.ok.inj h)
        exact ⟨hread, hunique⟩
      · rintro ⟨h, -⟩
        obtain ⟨rfl, rfl⟩ := hsame h
        rfl
    · intro f
      refine ⟨fun h => (nomatch h), ?_⟩
      rintro ⟨value', c', h, hnone, -⟩
      obtain ⟨rfl, -⟩ := hsame h
      exact absurd htext (hnone text)
  · have hnone : ∀ text, value ≠ encoded text :=
      fun text h => hvalid (isValid_iff.mpr ⟨text, h⟩)
    have herror : b.readCString = .error (.thrown (.invalidValue "string" value)) := by
      rw [readCString_of_invalid (hvalue ▸ Bool.not_eq_true _ ▸ hvalid), hvalue]
    rw [herror]
    constructor
    · intro value' c'
      refine ⟨fun h => (nomatch h), ?_⟩
      rintro ⟨h, text, htext, -⟩
      obtain ⟨rfl, -⟩ := hsame h
      exact absurd htext (hnone text)
    · intro f
      constructor
      · intro h
        exact ⟨value, c, hread, hnone, (Except.error.inj h).symm⟩
      · rintro ⟨value', c', h, -, rfl⟩
        obtain ⟨rfl, -⟩ := hsame h
        rfl

example : (⟨2, 0, [9, 9, 0xe2, 0x82, 0xac, 0x41, 0, 7]⟩ : ByteBuffer).readCString.toOption.map
    (fun r => (r.1, r.2.rpos)) = some (encoded ['€', 'A'], 7) := by decide +kernel

end Reading
end ByteBuffer
end Warhead
