import WarheadFix.Common.LocalHour
import WarheadFix.Shared.BoundsChecks
import WarheadFix.Shared.TypedValues
import WarheadFix.Lib.Calendar

/-! Packed times. A broken-down time is written as the bits of one word, from the minutes up to
the years since 2000, and read back from them. -/

namespace Warhead
open Lib Calendar

namespace ByteBuffer

def packedDate (lt : Tm) : UInt32 :=
  UInt32.ofInt (lt.tm_year - 100) <<< 24 ||| UInt32.ofInt lt.tm_mon <<< 20 |||
    UInt32.ofInt (lt.tm_mday - 1) <<< 14 ||| UInt32.ofInt lt.tm_wday <<< 11 |||
    UInt32.ofInt lt.tm_hour <<< 6 ||| UInt32.ofInt lt.tm_min

def AppendPackedTime (b : ByteBuffer) (zone : Zone) (now time : Int) : Result ByteBuffer :=
  b.append (Scalar.uint32.fixed.toBytes (packedDate (Time.timeBreakdown zone.offset now time)))

/-- The members that `ReadPackedTime` sets; the others are 0. -/
def unpackedDate (packedDate : UInt32) : Tm where
  tm_sec := 0
  tm_min := (packedDate &&& 0x3F).toNat
  tm_hour := (packedDate >>> 6 &&& 0x1F).toNat
  tm_mday := (packedDate >>> 14 &&& 0x3F).toNat + 1
  tm_mon := (packedDate >>> 20 &&& 0xF).toNat
  tm_year := (packedDate >>> 24 &&& 0x1F).toNat + 100
  tm_wday := 0

def Member.ReadPackedTime (zone : Zone) : Member UInt32 := do
  let packedDate ← readValue 4
  return UInt32.ofInt (mktime zone (unpackedDate (Scalar.uint32.fixed.ofBytes packedDate)))

/-! ## The word -/

theorem join {a b w k : Nat} (hb : b < 2 ^ w) :
    a <<< (k + w) ||| b <<< k = (a * 2 ^ w + b) <<< k := by
  rw [Nat.add_comm k, Nat.shiftLeft_add, ← Nat.shiftLeft_or_distrib,
    ← Nat.shiftLeft_add_eq_or_of_lt hb, Nat.shiftLeft_eq a]

theorem toNat_ofInt {n : Nat} (h : n < 2 ^ 32) : (UInt32.ofInt n).toNat = n := by
  rw [UInt32.ofInt, UInt32.toNat_ofNat']
  omega

theorem toNat_field {n k : Nat} {shift : UInt32} (hshift : shift.toNat % 32 = k)
    (h : n * 2 ^ k < 2 ^ 32) : (UInt32.ofInt n <<< shift).toNat = n <<< k := by
  have hn : n < 2 ^ 32 := (Nat.le_mul_of_pos_right n (Nat.two_pow_pos k)).trans_lt h
  rw [UInt32.toNat_shiftLeft, toNat_ofInt hn, hshift, Nat.shiftLeft_eq, Nat.mod_eq_of_lt h]

structure Fields (lt : Tm) (year mon mday wday hour min : Nat) : Prop where
  tm_year : lt.tm_year - 100 = year
  tm_mon : lt.tm_mon = mon
  tm_mday : lt.tm_mday - 1 = mday
  tm_wday : lt.tm_wday = wday
  tm_hour : lt.tm_hour = hour
  tm_min : lt.tm_min = min
  year_lt : year < 2 ^ 7
  mon_lt : mon < 2 ^ 4
  mday_lt : mday < 2 ^ 6
  wday_lt : wday < 2 ^ 3
  hour_lt : hour < 2 ^ 5
  min_lt : min < 2 ^ 6

section Word
variable {lt : Tm} {year mon mday wday hour min : Nat}

theorem Fields.toNat_packedDate (h : Fields lt year mon mday wday hour min) :
    (packedDate lt).toNat =
      ((((year * 2 ^ 4 + mon) * 2 ^ 6 + mday) * 2 ^ 3 + wday) * 2 ^ 5 + hour) * 2 ^ 6 + min := by
  have hyear := h.year_lt
  have hmon := h.mon_lt
  have hmday := h.mday_lt
  have hwday := h.wday_lt
  have hhour := h.hour_lt
  have hmin := h.min_lt
  rw [packedDate, h.tm_year, h.tm_mon, h.tm_mday, h.tm_wday, h.tm_hour, h.tm_min]
  simp only [UInt32.toNat_or]
  rw [toNat_field (n := year) (k := 24) rfl (by omega),
    toNat_field (n := mon) (k := 20) rfl (by omega),
    toNat_field (n := mday) (k := 14) rfl (by omega),
    toNat_field (n := wday) (k := 11) rfl (by omega),
    toNat_field (n := hour) (k := 6) rfl (by omega), toNat_ofInt (n := min) (by omega)]
  rw [join (w := 4) (k := 20) hmon, join (w := 6) (k := 14) hmday, join (w := 3) (k := 11) hwday,
    join (w := 5) (k := 6) hhour, ← Nat.shiftLeft_add_eq_or_of_lt hmin, Nat.shiftLeft_eq]

theorem toNat_extract {p mask : UInt32} {shift : UInt32} {k w : Nat}
    (hshift : shift.toNat % 32 = k) (hmask : mask.toNat = 2 ^ w - 1) :
    (p >>> shift &&& mask).toNat = p.toNat / 2 ^ k % 2 ^ w := by
  rw [UInt32.toNat_and, UInt32.toNat_shiftRight, hshift, hmask, Nat.and_two_pow_sub_one_eq_mod,
    Nat.shiftRight_eq_div_pow]

theorem Fields.unpackedDate (h : Fields lt year mon mday wday hour min) :
    unpackedDate (packedDate lt) =
      { lt with tm_sec := 0, tm_year := (year % 2 ^ 5 : Nat) + 100, tm_wday := 0 } := by
  have hyear := h.year_lt
  have hmon := h.mon_lt
  have hmday := h.mday_lt
  have hwday := h.wday_lt
  have hhour := h.hour_lt
  have hmin := h.min_lt
  have hword := h.toNat_packedDate
  have hlow : (packedDate lt &&& 0x3F).toNat = (packedDate lt).toNat % 2 ^ 6 := by
    rw [UInt32.toNat_and]
    exact Nat.and_two_pow_sub_one_eq_mod _ 6
  rw [ByteBuffer.unpackedDate, hlow, toNat_extract (k := 6) (w := 5) rfl rfl,
    toNat_extract (k := 14) (w := 6) rfl rfl, toNat_extract (k := 20) (w := 4) rfl rfl,
    toNat_extract (k := 24) (w := 5) rfl rfl, hword]
  have htm_min := h.tm_min
  have htm_hour := h.tm_hour
  have htm_mday := h.tm_mday
  have htm_mon := h.tm_mon
  rw [Tm.mk.injEq]
  refine ⟨rfl, ?_, ?_, ?_, ?_, ?_, rfl⟩ <;> omega

end Word

/-! ## The round trip -/

variable {zone : Zone} {now time : Int}

/-- Writing a time and reading it gives its members back, and the time without its seconds. -/
structure PackedRoundTrip (zone : Zone) (now time : Int) : Prop where
  tm_min : (unpackedDate (packedDate (Time.timeBreakdown zone.offset now time))).tm_min =
    (localtime zone time).tm_min
  tm_hour : (unpackedDate (packedDate (Time.timeBreakdown zone.offset now time))).tm_hour =
    (localtime zone time).tm_hour
  tm_mday : (unpackedDate (packedDate (Time.timeBreakdown zone.offset now time))).tm_mday =
    (localtime zone time).tm_mday
  tm_mon : (unpackedDate (packedDate (Time.timeBreakdown zone.offset now time))).tm_mon =
    (localtime zone time).tm_mon
  tm_year : (unpackedDate (packedDate (Time.timeBreakdown zone.offset now time))).tm_year =
    (localtime zone time).tm_year
  returned : ∀ b : ByteBuffer, b.wpos ≤ b.size → b.size < 10000000 →
    ∃ written r, b.AppendPackedTime zone now time = .ok written ∧
      (Member.ReadPackedTime zone).call { written with rpos := b.wpos } =
        (.ok r, { written with rpos := written.wpos }) ∧
      (r.toNat : Int) = time - (localtime zone time).tm_sec

theorem start_2000 : Pieces.start years 30 = 10957 := by decide +kernel

theorem start_2032 : Pieces.start years 62 = 22645 := by decide +kernel

theorem timeBreakdown_of_year (h : 100 ≤ (localtime zone time).tm_year) :
    Time.timeBreakdown zone.offset now time = localtime zone time := by
  have hstart := start_le_of_year (n := 30) (by decide) h
  have hzone := zone.bound
  rw [start_2000] at hstart
  rw [Time.timeBreakdown, if_neg (by omega), localtimeAt_zone]

theorem exists_fields (hfirst : 100 ≤ (localtime zone time).tm_year)
    (hlast : (localtime zone time).tm_year ≤ 227) :
    ∃ mon mday wday hour min, Fields (localtime zone time)
      ((localtime zone time).tm_year - 100).toNat mon mday wday hour min := by
  obtain ⟨-, -, hmin, hmin', hhour, hhour', hmday, hmday', hmon, hmon', hwday, hwday'⟩ :=
    localtime_range zone time
  refine ⟨(localtime zone time).tm_mon.toNat, ((localtime zone time).tm_mday - 1).toNat,
    (localtime zone time).tm_wday.toNat, (localtime zone time).tm_hour.toNat,
    (localtime zone time).tm_min.toNat, ?_⟩
  constructor <;> omega

theorem call_ReadPackedTime {b : ByteBuffer} {p : UInt32} {after : Bytes}
    (hsize : b.size < 2 ^ 64) (hpos : b.rpos ≤ b.size)
    (h : b.storage.drop b.rpos = Scalar.uint32.fixed.toBytes p ++ after) :
    (Member.ReadPackedTime zone).call b =
      (.ok (UInt32.ofInt (mktime zone (unpackedDate p))), { b with rpos := b.rpos + 4 }) := by
  have hlength : (Scalar.uint32.fixed.toBytes p).length = 4 := Scalar.uint32.fixed.length_toBytes p
  have hvalue : b.readAt 4 b.rpos = .ok (Scalar.uint32.fixed.toBytes p) :=
    readAt_of_drop hsize hpos h hlength
  have hfits := congrArg List.length h
  rw [List.length_drop, List.length_append, hlength] at hfits
  have hadd : addSize b.rpos 4 = b.rpos + 4 := by
    apply Nat.mod_eq_of_lt
    change b.size - b.rpos = _ at hfits
    omega
  have hread := Member.call_readValue (b := b) 4
  rw [hvalue] at hread
  rw [Member.ReadPackedTime, Member.call_bind_ok hread, Fixed.ofBytes_toBytes, hadd]
  rfl

theorem append_ReadPackedTime (zone : Zone) {b : ByteBuffer} (hw : b.wpos ≤ b.size)
    (hsize : b.size < 10000000) (p : UInt32) :
    ∃ written, b.append (Scalar.uint32.fixed.toBytes p) = .ok written ∧
      (Member.ReadPackedTime zone).call { written with rpos := b.wpos } =
        (.ok (UInt32.ofInt (mktime zone (unpackedDate p))),
          { written with rpos := written.wpos }) := by
  have hlength : (Scalar.uint32.fixed.toBytes p).length = 4 := Scalar.uint32.fixed.length_toBytes p
  have hbefore : (b.storage.take b.wpos).length = b.wpos := List.length_take_of_le hw
  set after := b.storage.drop (b.wpos + 4) with hafter
  have happend := append_eq hw (Scalar.uint32.fixed.toBytes_ne_nil p) hsize
  rw [hlength, ← hafter] at happend
  have hdrop : (b.storage.take b.wpos ++ Scalar.uint32.fixed.toBytes p ++ after).drop b.wpos =
      Scalar.uint32.fixed.toBytes p ++ after := by
    rw [List.append_assoc, List.drop_append_of_le_length hbefore.ge, List.drop_eq_nil_of_le
      hbefore.le, List.nil_append]
  have hwritten : (b.storage.take b.wpos ++ Scalar.uint32.fixed.toBytes p ++ after).length ≤
      b.size + 4 := by
    rw [List.length_append, List.length_append, hbefore, hlength, hafter, List.length_drop]
    change b.wpos + 4 + (b.size - (b.wpos + 4)) ≤ b.size + 4
    omega
  refine ⟨_, happend, call_ReadPackedTime (hwritten.trans_lt (by omega)) ?_ hdrop⟩
  rw [List.append_assoc, size, List.length_append, hbefore]
  exact Nat.le_add_right _ _

theorem toNat_ofInt_of_range {x : Int} (h : 0 ≤ x) (hlt : x < 2 ^ 32) :
    ((UInt32.ofInt x).toNat : Int) = x := by
  obtain ⟨n, rfl⟩ := Int.eq_ofNat_of_zero_le h
  rw [toNat_ofInt (by omega)]

/-- The year comes back up to 2031, and then everything does. -/
theorem packed_time_iff (hfirst : 100 ≤ (localtime zone time).tm_year)
    (hlast : (localtime zone time).tm_year ≤ 227) :
    PackedRoundTrip zone now time ↔ (localtime zone time).tm_year < 132 := by
  obtain ⟨mon, mday, wday, hour, min, hfields⟩ := exists_fields hfirst hlast
  have hbreak : Time.timeBreakdown zone.offset now time = localtime zone time :=
    timeBreakdown_of_year hfirst
  have hunpacked := hfields.unpackedDate
  constructor
  · intro h
    have hyear := h.tm_year
    rw [hbreak, hunpacked] at hyear
    dsimp only at hyear
    omega
  · intro hyear
    have hlow : ((((localtime zone time).tm_year - 100).toNat % 2 ^ 5 : Nat) : Int) + 100 =
        (localtime zone time).tm_year := by omega
    rw [hlow] at hunpacked
    refine ⟨?_, ?_, ?_, ?_, ?_, ?_⟩
    · rw [hbreak, hunpacked]
    · rw [hbreak, hunpacked]
    · rw [hbreak, hunpacked]
    · rw [hbreak, hunpacked]
    · rw [hbreak, hunpacked]
    · intro b hw hsize
      have hfits := lt_start_of_year (n := 62) (by decide) hyear
      have hstart := start_le_of_year (n := 30) (by decide) hfirst
      have hzone := zone.bound
      obtain ⟨hsec, hsec', -⟩ := localtime_range zone time
      rw [start_2000] at hstart
      rw [start_2032] at hfits
      obtain ⟨written, happend, hread⟩ := append_ReadPackedTime zone hw hsize
        (packedDate (Time.timeBreakdown zone.offset now time))
      refine ⟨written, _, happend, hread, ?_⟩
      have hminute : mktime zone (unpackedDate (packedDate (localtime zone time))) =
          time - (localtime zone time).tm_sec := by
        rw [hunpacked, mktime_minute, mktime_localtime]
      rw [hbreak, hminute]
      exact toNat_ofInt_of_range (by omega) (by omega)

theorem packed_time_iff_2020 :
    PackedRoundTrip ⟨0, by decide⟩ 1 1577840399 ↔
      (localtime ⟨0, by decide⟩ 1577840399).tm_year < 132 :=
  packed_time_iff (by decide +kernel) (by decide +kernel)

/-- The beginning of 2032 is read as that of 2000. -/
theorem packed_time_2032 : ¬ ∀ (zone : Zone) (now time : Int),
    100 ≤ (localtime zone time).tm_year → (localtime zone time).tm_year ≤ 227 →
      PackedRoundTrip zone now time := by
  intro h
  have hyear := (h ⟨0, by decide⟩ 1 1956528000 (by decide +kernel) (by decide +kernel)).tm_year
  exact absurd hyear (by decide +kernel)

end ByteBuffer
end Warhead
