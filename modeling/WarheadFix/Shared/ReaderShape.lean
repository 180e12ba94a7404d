import WarheadFix.Lib.FixFrame
import WarheadFix.Shared.MessageReader

/-! The results of the message reader: an incomplete reader, an invalid one, or the layout
of a message, as far as the reader checks it. -/

namespace Warhead.Hffix
open Lib

def bodyLengthOf (digits : Bytes) : Nat :=
  digits.foldl (fun n c => (n * 10 + (c.toNat - 48)) % 2 ^ 64) 0

section Scans
variable {size : Nat} {cs : Bytes} {b p : Nat}

theorem skipPrefix_found (h : skipPrefix size cs b = .ok (.found p)) :
    ∃ ts rest, cs = ts ++ SOH :: rest ∧ SOH ∉ ts ∧ p = b + ts.length ∧ p < size := by
  induction cs generalizing b with
  | nil =>
    unfold skipPrefix at h
    split_ifs at h
    exact absurd (Except.ok.inj h) nofun
  | cons c cs ih =>
    unfold skipPrefix at h
    split_ifs at h with hsize hc hlate
    · exact absurd (Except.ok.inj h) nofun
    · obtain rfl := Scan.found.inj (Except.ok.inj h)
      exact ⟨[], cs, by rw [hc, List.nil_append], List.not_mem_nil, rfl, by omega⟩
    · exact absurd (Except.ok.inj h) nofun
    · obtain ⟨ts, rest, rfl, hts, rfl, hp⟩ := ih h
      refine ⟨c :: ts, rest, rfl, ?_, by rw [List.length_cons]; omega, hp⟩
      exact fun hmem => (List.mem_cons.mp hmem).elim (fun he => hc he.symm) hts

theorem readBodyLength_found {n acc : Nat}
    (h : readBodyLength size cs b acc = .ok (.found (p, n))) :
    ∃ ds rest, cs = ds ++ SOH :: rest ∧ IsDigits ds ∧ p = b + ds.length ∧ p < size ∧
      n = ds.foldl (fun n c => (n * 10 + (c.toNat - 48)) % 2 ^ 64) acc := by
  induction cs generalizing b acc with
  | nil =>
    unfold readBodyLength at h
    split_ifs at h
    exact absurd (Except.ok.inj h) nofun
  | cons c cs ih =>
    unfold readBodyLength at h
    split_ifs at h with hsize hc hdigit
    · exact absurd (Except.ok.inj h) nofun
    · obtain ⟨rfl, rfl⟩ := Prod.mk.inj (Scan.found.inj (Except.ok.inj h))
      exact ⟨[], cs, by rw [hc, List.nil_append], fun _ => nofun, rfl, by omega, rfl⟩
    · exact absurd (Except.ok.inj h) nofun
    · obtain ⟨ds, rest, rfl, hds, rfl, hp, rfl⟩ := ih h
      refine ⟨c :: ds, rest, rfl, ?_, by rw [List.length_cons]; omega, hp, rfl⟩
      rintro d (_ | ⟨_, hd⟩)
      · simpa only [not_or, UInt8.not_lt] using hdigit
      · exact hds d hd

theorem readMsgType_found {checksum q e : Int} (h : readMsgType checksum cs q = .ok (some e)) :
    ∃ ts rest, cs = ts ++ SOH :: rest ∧ SOH ∉ ts ∧ e = q + ts.length := by
  induction cs generalizing q with
  | nil => exact absurd h nofun
  | cons c cs ih =>
    unfold readMsgType at h
    split_ifs at h with hc hlate
    · obtain rfl := Option.some.inj (Except.ok.inj h)
      exact ⟨[], cs, by rw [hc, List.nil_append], List.not_mem_nil, by simp⟩
    · exact absurd (Except.ok.inj h) nofun
    · obtain ⟨ts, rest, rfl, hts, rfl⟩ := ih h
      refine ⟨c :: ts, rest, rfl, ?_, by rw [List.length_cons]; omega⟩
      exact fun hmem => (List.mem_cons.mp hmem).elim (fun he => hc he.symm) hts

end Scans

section Expect
variable {mem : Bytes} {q : Int} {c : UInt8} {bad r : MessageReader} {next : Result MessageReader}

theorem expect_ok (h : expect mem q c bad next = .ok r) :
    r = bad ∨ ((byteAt mem q : Result UInt8) = .ok c ∧ next = .ok r) := by
  obtain ⟨d, hd, h⟩ := bind_eq_ok.mp h
  split_ifs at h with hdc
  · exact .inr ⟨hdc ▸ hd, h⟩
  · exact .inl (Except.ok.inj h).symm

theorem expect_of_byteAt (h : (byteAt mem q : Result UInt8) = .ok c) :
    expect mem q c bad next = next := by
  simp [expect, h, Bind.bind, Except.bind]

end Expect

/-- A message as far as the reader looks at it: the version ends at `p`, the BodyLength has
these digits, and the MsgType value is followed at `e` by a SOH. -/
structure Layout (mem : Bytes) (size p : Nat) (digits : Bytes) (checksum e : Int) : Prop where
  version : ∃ ts rest, mem.drop 9 = ts ++ SOH :: rest ∧ SOH ∉ ts ∧ p = 9 + ts.length
  lengthTag : mem[p + 1]? = some 57
  length : ∃ rest, mem.drop (p + 3) = digits ++ SOH :: rest
  isDigits : IsDigits digits
  typeTag : mem[p + digits.length + 4]? = some 51 ∧ mem[p + digits.length + 5]? = some 53
  checksum_eq : checksum = (p + digits.length + 4 : Nat) + displacement (bodyLengthOf digits)
  checksum_le : checksum + 7 ≤ size
  bodyEnd : (byteAt mem (checksum - 1) : Result UInt8) = .ok SOH
  messageEnd : (byteAt mem (checksum + 6) : Result UInt8) = .ok SOH
  typeEnd : ∃ ts rest, mem.drop (p + digits.length + 8) = ts ++ SOH :: rest ∧ SOH ∉ ts ∧
    e = (p + digits.length + 8 + ts.length : Nat)

section Reader
variable {mem : Bytes} {size : Nat} {r : MessageReader}

theorem byteAt_natCast_eq_ok {n : Nat} {c : UInt8} :
    (byteAt mem (n : Int) : Result UInt8) = .ok c ↔ mem[n]? = some c :=
  ⟨fun h => by simpa using (byteAt_eq_ok h).2, byteAt_of_getElem?⟩

theorem initBody_ok {b n : Nat} (h : initBody mem size b n = .ok r) :
    r = .incomplete size ∨ r = .invalid size ∨ ∃ checksum e : Int,
      r = .complete size b checksum e ∧ mem[b]? = some 51 ∧ mem[b + 1]? = some 53 ∧
      checksum = b + displacement n ∧ checksum + 7 ≤ size ∧
      (byteAt mem (checksum - 1) : Result UInt8) = .ok SOH ∧
      (byteAt mem (checksum + 6) : Result UInt8) = .ok SOH ∧
      ∃ ts rest, mem.drop (b + 4) = ts ++ SOH :: rest ∧ SOH ∉ ts ∧
        e = (b + 4 + ts.length : Nat) := by
  unfold initBody at h
  dsimp only at h
  by_cases hsize : size ≤ b + 3
  · rw [if_pos hsize] at h
    exact .inl (Except.ok.inj h).symm
  rw [if_neg hsize] at h
  rcases expect_ok h with rfl | ⟨hthree, h⟩
  · exact .inr (.inl rfl)
  rcases expect_ok h with rfl | ⟨hfive, h⟩
  · exact .inr (.inl rfl)
  by_cases hend : (size : Int) < b + displacement n + 7
  · rw [if_pos hend] at h
    exact .inl (Except.ok.inj h).symm
  rw [if_neg hend] at h
  rcases expect_ok h with rfl | ⟨hbody, h⟩
  · exact .inr (.inl rfl)
  rcases expect_ok h with rfl | ⟨hlast, h⟩
  · exact .inr (.inl rfl)
  obtain ⟨o, htype, h⟩ := bind_eq_ok.mp h
  cases o with
  | none => exact .inr (.inl (Except.ok.inj h).symm)
  | some e =>
    obtain ⟨ts, rest, hdrop, hts, rfl⟩ := readMsgType_found htype
    refine .inr (.inr ⟨_, _, (Except.ok.inj h).symm, byteAt_natCast_eq_ok.mp hthree,
      byteAt_natCast_eq_ok.mp hfive, rfl, by omega, hbody, hlast, ts, rest, hdrop, hts, ?_⟩)
    push_cast
    rfl

theorem messageReader_ok (h : messageReader mem size = .ok r) :
    r = .incomplete size ∨ r = .invalid size ∨ ∃ p digits checksum e,
      r = .complete size (p + digits.length + 4) checksum e ∧
      Layout mem size p digits checksum e := by
  obtain ⟨scan, hskip, h⟩ := bind_eq_ok.mp h
  cases scan with
  | incomplete => exact .inl (Except.ok.inj h).symm
  | invalid => exact .inr (.inl (Except.ok.inj h).symm)
  | found p =>
    obtain ⟨vs, vrest, hv, hvs, hp, hpsize⟩ := skipPrefix_found hskip
    simp only [initLength] at h
    split_ifs at h
    · exact .inl (Except.ok.inj h).symm
    rcases expect_ok h with rfl | ⟨hnine, h⟩
    · exact .inr (.inl rfl)
    obtain ⟨scan, hlen, h⟩ := bind_eq_ok.mp h
    cases scan with
    | incomplete => exact .inl (Except.ok.inj h).symm
    | invalid => exact .inr (.inl (Except.ok.inj h).symm)
    | found en =>
      obtain ⟨e, n⟩ := en
      obtain ⟨ds, rest, hdrop, hds, rfl, -, rfl⟩ := readBodyLength_found hlen
      have hb : p + 3 + ds.length + 1 = p + ds.length + 4 := by omega
      dsimp only at h
      rw [hb] at h
      rcases initBody_ok h with hr | hr | ⟨checksum, e, hr, hthree, hfive, hc, hle, hbody, hlast,
        htype⟩
      · exact .inl hr
      · exact .inr (.inl hr)
      · exact .inr (.inr ⟨p, ds, checksum, e, hr, ⟨vs, vrest, hv, hvs, hp⟩,
          byteAt_natCast_eq_ok.mp hnine, ⟨rest, hdrop⟩, hds, ⟨hthree, hfive⟩, hc, hle, hbody,
          hlast, htype⟩)

end Reader
end Warhead.Hffix
