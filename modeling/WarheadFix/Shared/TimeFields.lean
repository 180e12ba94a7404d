import WarheadFix.Lib.CivilDate
import WarheadFix.Shared.MessageReader
import WarheadFix.Shared.NumberFields

/-! Points in time as field values. The writer takes a time point apart into a date and a time of
day and the reader puts it together again, both by arithmetic on unsigned ints. Time points of
the writer are nanoseconds since 1970, those of the reader milliseconds. -/

namespace Warhead.Hffix
open Lib MessageWriter

def unsigned (n : Int) : Int := n % 2 ^ 32

def signed (n : Int) : Int := Int.bmod n (2 ^ 32)

/-! ## Dates -/

def civilFromDays (daysSinceEpoch : Int) : Int × Int × Int :=
  let era := unsigned
    ((if 0 ≤ daysSinceEpoch then daysSinceEpoch else daysSinceEpoch - 146096).tdiv 146097)
  let doe := unsigned (daysSinceEpoch - unsigned (era * 146097))
  let yoe := unsigned (doe - doe / 1460 + doe / 36524 - doe / 146096) / 365
  let doy := unsigned (doe - unsigned (365 * yoe + yoe / 4 - yoe / 100))
  let mp := unsigned (5 * doy + 2) / 153
  let day := signed (doy - unsigned (153 * mp + 2) / 5 + 1)
  let month := signed (mp + if mp < 10 then 3 else -9)
  let year := signed (yoe + era * 400)
  (signed (year + if month ≤ 2 then 1 else 0), month, day)

/-- The days since 1970, in an unsigned int: before 1970 it is a number close to 2^32. -/
def daysFromCivil (year month day : Int) : Int :=
  let year := year - if month ≤ 2 then 1 else 0
  let era := unsigned ((if 0 ≤ year then year else year - 399).tdiv 400)
  let yoe := unsigned (year - era * 400)
  let doy := unsigned ((153 * (month + if 2 < month then -3 else 9) + 2).tdiv 5 + day - 1)
  let doe := unsigned (yoe * 365 + yoe / 4 - yoe / 100 + doy)
  unsigned (era * 146097 + doe - 719468)

/-! ## Time points -/

def timepointtoparts (tp : Int) : Timestamp :=
  let epochSec := tp.tdiv 1000000000
  let daySec := epochSec - epochSec.tmod 86400
  let (year, month, day) := civilFromDays (daySec.tdiv 86400 + 719468)
  let inDay := signed ((tp - daySec * 1000000000).tdiv 1000000)
  let hour := inDay.tdiv (60 * 60 * 1000)
  let afterHour := inDay - hour * 60 * 60 * 1000
  let minute := afterHour.tdiv (60 * 1000)
  let afterMinute := afterHour - minute * 60 * 1000
  let second := afterMinute.tdiv 1000
  ⟨year, month, day, hour, minute, second, afterMinute - second * 1000⟩

def atodate (mem : Bytes) (v : FieldValue) : Result (Option (Int × Int × Int)) :=
  if v.end_ - v.begin_ ≠ 8 then pure none
  else do
    let year ← asInt mem ⟨v.begin_, v.begin_ + 4⟩
    let month ← asInt mem ⟨v.begin_ + 4, v.begin_ + 6⟩
    let day ← asInt mem ⟨v.begin_ + 6, v.begin_ + 8⟩
    pure (some (year, month, day))

/-- The time of day, the milliseconds being 0 where the text does not go on to them. The
characters between the numbers are not looked at. -/
def atotime (mem : Bytes) (v : FieldValue) : Result (Option (Int × Int × Int × Int)) :=
  if v.end_ - v.begin_ ≠ 8 ∧ v.end_ - v.begin_ ≠ 12 then pure none
  else do
    let hour ← asInt mem ⟨v.begin_, v.begin_ + 2⟩
    let minute ← asInt mem ⟨v.begin_ + 3, v.begin_ + 5⟩
    let second ← asInt mem ⟨v.begin_ + 6, v.begin_ + 8⟩
    let millisecond ←
      if v.end_ - v.begin_ = 12 then asInt mem ⟨v.begin_ + 9, v.begin_ + 12⟩ else pure 0
    pure (some (hour, minute, second, millisecond))

def asParts (mem : Bytes) (v : FieldValue) : Result (Option Timestamp) := do
  match ← atotime mem ⟨v.begin_ + 9, v.end_⟩ with
  | none => pure none
  | some (hour, minute, second, millisecond) =>
    match ← atodate mem ⟨v.begin_, v.begin_ + 8⟩ with
    | none => pure none
    | some (year, month, day) =>
      pure (some ⟨year, month, day, hour, minute, second, millisecond⟩)

def timepoint (t : Timestamp) : Int :=
  (daysFromCivil t.year t.month t.day * 24 * 3600 + t.hour * 3600 + t.minute * 60 + t.second) * 1000 +
    t.millisecond

/-- `as_timestamp` of a time point, by `atotimepoint`, which is false only for the length. -/
def asTimePoint (mem : Bytes) (v : FieldValue) : Result (Option Int) := do
  pure ((← asParts mem v).map timepoint)

def pushBackTimePoint (w : MessageWriter) (tag tp : Int) : Result MessageWriter :=
  w.pushBackTimestamp tag (timepointtoparts tp)

structure Timestamp.InRange (t : Timestamp) : Prop where
  year : 0 ≤ t.year ∧ t.year < 10000
  month : 0 ≤ t.month ∧ t.month < 100
  day : 0 ≤ t.day ∧ t.day < 100
  hour : 0 ≤ t.hour ∧ t.hour < 100
  minute : 0 ≤ t.minute ∧ t.minute < 100
  second : 0 ≤ t.second ∧ t.second < 100
  millisecond : 0 ≤ t.millisecond ∧ t.millisecond < 1000

/-! ## The calendar -/

section Calendar
open Calendar Pieces Civil

theorem unsigned_of_lt {n : Int} (h : 0 ≤ n) (hlt : n < 2 ^ 32) : unsigned n = n :=
  Int.emod_eq_of_lt h hlt

theorem signed_of_lt {n : Int} (h : -2 ^ 31 ≤ n) (hlt : n < 2 ^ 31) : signed n = n :=
  Int.bmod_eq_of_le (by omega) (by omega)

variable {year z : Int} {mon day : Nat}

def DayOf (z year : Int) (mon day : Nat) : Prop :=
  z = 146097 * (marchYear year mon / 400) +
    dayOfEra (eraYear (marchYear year mon)) (daysBefore (marchMonth mon) + day)

theorem DayOf.parts (hz : DayOf z year mon day) (hmon : mon < 12)
    (hday : day < monthLength (leap year) mon) :
    ∃ yoe doy mp doe : Nat, yoe = eraYear (marchYear year mon) ∧ mp = marchMonth mon ∧
      yoe < 400 ∧ mp < 12 ∧ doy < 366 ∧ doe < 146097 ∧ doy = daysBefore mp + day ∧
      doe = dayOfEra yoe doy ∧ yearOfEra doe = yoe ∧ monthOf doy = mp ∧
      z = 146097 * (marchYear year mon / 400) + doe := by
  have hdoy := doy_lt_yearDays hday hmon
  refine ⟨eraYear (marchYear year mon), daysBefore (marchMonth mon) + day, marchMonth mon, _, rfl,
    rfl, eraYear_lt _, marchMonth_lt hmon, hdoy.trans_le (yearDays_le _),
    dayOfEra_lt (eraYear_lt _) hdoy, rfl, rfl, yearOfEra_dayOfEra (eraYear_lt _) hdoy,
    monthOf_daysBefore (marchMonth_lt hmon) (day_lt_monthDays hday hmon), hz⟩

theorem civilFromDays_eq (hz : DayOf z year mon day) (hmon : mon < 12)
    (hday : day < monthLength (leap year) mon) (hpos : 0 ≤ z) (hlt : z < 2 ^ 31) :
    civilFromDays z = (year, (mon : Int) + 1, (day : Int) + 1) := by
  obtain ⟨yoe, doy, mp, doe, hyoe, hmp, hyoe400, hmp12, hdoy366, hdoelt, hdoy, hdoe, hyear, hmonth,
    hz⟩ := hz.parts hmon hday
  have hmarch : (yoe : Int) = marchYear year mon % 400 := by
    rw [hyoe, eraYear]
    omega
  set era := marchYear year mon / 400 with hera
  have h1 : unsigned ((if 0 ≤ z then z else z - 146096).tdiv 146097) = era := by
    rw [if_pos hpos, Int.tdiv_eq_ediv_of_nonneg hpos, unsigned_of_lt] <;> omega
  have h2 : unsigned (z - unsigned (era * 146097)) = doe := by
    rw [unsigned_of_lt (n := era * 146097), unsigned_of_lt] <;> omega
  have h3 : unsigned ((doe : Int) - doe / 1460 + doe / 36524 - doe / 146096) / 365 = yoe := by
    rw [unsigned_of_lt, ← hyear, yearOfEra] <;> omega
  have h4 : unsigned ((doe : Int) - unsigned (365 * yoe + (yoe : Int) / 4 - (yoe : Int) / 100)) =
      doy := by
    rw [dayOfEra] at hdoe
    rw [unsigned_of_lt (n := 365 * (yoe : Int) + (yoe : Int) / 4 - (yoe : Int) / 100),
      unsigned_of_lt] <;> omega
  have h5 : unsigned (5 * (doy : Int) + 2) / 153 = mp := by
    rw [unsigned_of_lt, ← hmonth, monthOf] <;> omega
  have h6 : signed ((doy : Int) - unsigned (153 * mp + 2) / 5 + 1) = day + 1 := by
    rw [daysBefore] at hdoy
    rw [unsigned_of_lt, signed_of_lt] <;> omega
  have h7 : signed ((mp : Int) + if (mp : Int) < 10 then 3 else -9) = mon + 1 := by
    rw [signed_of_lt]
    all_goals
      unfold marchMonth at hmp
      split_ifs at hmp ⊢ <;> omega
  have h8 : signed ((yoe : Int) + era * 400) = marchYear year mon := by
    rw [signed_of_lt] <;> omega
  have h9 : signed (marchYear year mon + if (mon : Int) + 1 ≤ 2 then 1 else 0) = year := by
    rw [signed_of_lt]
    all_goals
      unfold marchYear at h8 hera ⊢
      split_ifs <;> omega
  unfold civilFromDays
  simp only [h1, h2, h3, h4, h5, h6, h7, h8, h9]

theorem daysFromCivil_eq (hz : DayOf z year mon day) (hmon : mon < 12)
    (hday : day < monthLength (leap year) mon) (hyear : 1970 ≤ year) (hfour : year < 10000) :
    daysFromCivil year (mon + 1) (day + 1) = z - 719468 := by
  obtain ⟨yoe, doy, mp, doe, hyoe, hmp, hyoe400, hmp12, hdoy366, hdoelt, hdoy, hdoe, -, -, hz⟩ :=
    hz.parts hmon hday
  have hmarch : (yoe : Int) = marchYear year mon % 400 := by
    rw [hyoe, eraYear]
    omega
  have hlow : 1969 ≤ marchYear year mon ∧ (marchYear year mon = 1969 → mon < 2) := by
    unfold marchYear
    split_ifs <;> omega
  have hhigh : marchYear year mon < 10000 := by
    unfold marchYear
    split_ifs <;> omega
  have h1 : year - (if (mon : Int) + 1 ≤ 2 then 1 else 0) = marchYear year mon := by
    unfold marchYear
    split_ifs <;> omega
  set era := marchYear year mon / 400 with hera
  have h2 : unsigned ((if 0 ≤ marchYear year mon then marchYear year mon
      else marchYear year mon - 399).tdiv 400) = era := by
    rw [if_pos (by omega), Int.tdiv_eq_ediv_of_nonneg (by omega), unsigned_of_lt] <;> omega
  have h3 : unsigned (marchYear year mon - era * 400) = yoe := by
    rw [unsigned_of_lt] <;> omega
  have h4 : unsigned ((153 * ((mon : Int) + 1 + if 2 < (mon : Int) + 1 then -3 else 9) + 2).tdiv 5 +
      ((day : Int) + 1) - 1) = doy := by
    have hmp' : (mon : Int) + 1 + (if 2 < (mon : Int) + 1 then -3 else 9) = mp := by
      unfold marchMonth at hmp
      split_ifs at hmp ⊢ <;> omega
    rw [daysBefore] at hdoy
    rw [hmp', Int.tdiv_eq_ediv_of_nonneg (by omega), unsigned_of_lt] <;> omega
  have h5 : unsigned ((yoe : Int) * 365 + yoe / 4 - yoe / 100 + doy) = doe := by
    rw [dayOfEra] at hdoe
    rw [unsigned_of_lt] <;> omega
  have hdays : 719468 ≤ z := by
    by_cases hfirst : marchYear year mon = 1969
    · -- January and February of 1970
      have hmon2 := hlow.2 hfirst
      have hyoe' : yoe = 369 := by omega
      have hmonth : 306 ≤ doy := by
        rw [hdoy, hmp, marchMonth, if_pos hmon2, daysBefore]
        omega
      rw [hyoe', dayOfEra] at hdoe
      omega
    · have hlate : 1970 ≤ marchYear year mon := by omega
      rw [dayOfEra] at hdoe
      omega
  have h6 : unsigned (era * 146097 + doe - 719468) = z - 719468 := by
    rw [unsigned_of_lt] <;> omega
  unfold daysFromCivil
  simp only [h1, h2, h3, h4, h5, h6]

def calendarTime (tp : Int) : Timestamp :=
  let tm := localtime utc (tp / 1000000000)
  ⟨tm.tm_year + 1900, tm.tm_mon + 1, tm.tm_mday, tm.tm_hour, tm.tm_min, tm.tm_sec,
    tp / 1000000 % 1000⟩

/-- A time point from 1970 on, in nanoseconds that fit into 64 bits. -/
structure IsTimePoint (tp : Int) : Prop where
  nonneg : 0 ≤ tp
  lt : tp < 2 ^ 63

theorem IsTimePoint.date {tp : Int} (h : IsTimePoint tp) : ∃ year mon day second,
    DayOf (tp / 1000000000 / 86400 + 719468) year mon day ∧ mon < 12 ∧
    day < monthLength (leap year) mon ∧ 1970 ≤ year ∧ year < 10000 ∧
    0 ≤ second ∧ second < 86400 ∧ tp / 1000000000 % 86400 = second ∧
    calendarTime tp = ⟨year, mon + 1, day + 1, second / 3600, second / 60 % 60, second % 60,
      tp / 1000000 % 1000⟩ := by
  obtain ⟨hnonneg, hlt⟩ := h
  obtain ⟨e, k, mon, day, second, hk, hmon, hday, hfirst, hlast, htime, hlocal⟩ :=
    exists_localtime utc (tp / 1000000000)
  have hutc : utc.offset = 0 := rfl
  rw [hutc, Int.add_zero] at htime
  have hyear : (localtime utc (tp / 1000000000)).tm_year = 1970 + 400 * e + k - 1900 := by
    rw [hlocal]
  have hearly : ¬1970 + 400 * e + k < 1970 := by
    intro hbefore
    have h0 := @lt_start_of_year utc (tp / 1000000000) 0 (by decide) (by omega)
    change tp / 1000000000 + 0 < 86400 * 0 at h0
    omega
  have hlate : ¬10000 ≤ 1970 + 400 * e + (k : Int) := by
    intro hafter
    have h400 := @start_le_of_year utc (tp / 1000000000) 400 (by decide) (by omega)
    rw [start_cycle, hutc] at h400
    omega
  have hdays := @days_eq (1970 + 400 * e + k) mon day e k hmon (by omega)
  refine ⟨1970 + 400 * e + k, mon, day, second, ?_, hmon, hday, by omega, by omega, hfirst, hlast,
    by omega, ?_⟩
  · unfold DayOf
    rw [← hdays]
    omega
  · unfold calendarTime
    rw [hlocal]
    simp only [Int.sub_add_cancel]

theorem timepointtoparts_eq {tp : Int} (h : IsTimePoint tp) :
    timepointtoparts tp = calendarTime tp := by
  obtain ⟨year, mon, day, second, hz, hmon, hday, -, -, hfirst, hlast, hsecond, hcalendar⟩ := h.date
  obtain ⟨hnonneg, hlt⟩ := h
  have hsec : tp.tdiv 1000000000 = tp / 1000000000 := Int.tdiv_eq_ediv_of_nonneg hnonneg
  have hmod : (tp / 1000000000).tmod 86400 = tp / 1000000000 % 86400 :=
    Int.tmod_eq_emod_of_nonneg (by omega)
  have hdays : (tp / 1000000000 - tp / 1000000000 % 86400).tdiv 86400 =
      tp / 1000000000 / 86400 := by
    rw [Int.tdiv_eq_ediv_of_nonneg] <;> omega
  have hdate := civilFromDays_eq hz hmon hday (by omega) (by omega)
  have hday : signed ((tp - (tp / 1000000000 - tp / 1000000000 % 86400) * 1000000000).tdiv
      1000000) = second * 1000 + tp / 1000000 % 1000 := by
    rw [Int.tdiv_eq_ediv_of_nonneg, signed_of_lt] <;> omega
  set ms := second * 1000 + tp / 1000000 % 1000 with hms
  have hhour : ms.tdiv (60 * 60 * 1000) = second / 3600 := by
    rw [Int.tdiv_eq_ediv_of_nonneg] <;> omega
  have hminute : (ms - second / 3600 * 60 * 60 * 1000).tdiv (60 * 1000) = second / 60 % 60 := by
    rw [Int.tdiv_eq_ediv_of_nonneg] <;> omega
  have hrest : (ms - second / 3600 * 60 * 60 * 1000 - second / 60 % 60 * 60 * 1000).tdiv 1000 =
      second % 60 := by
    rw [Int.tdiv_eq_ediv_of_nonneg] <;> omega
  have hmilli : ms - second / 3600 * 60 * 60 * 1000 - second / 60 % 60 * 60 * 1000 -
      second % 60 * 1000 = tp / 1000000 % 1000 := by omega
  unfold timepointtoparts
  rw [hcalendar]
  simp only [hsec, hmod, hdays, hdate, hday, hhour, hminute, hrest, hmilli]

theorem timepoint_calendarTime {tp : Int} (h : IsTimePoint tp) :
    timepoint (calendarTime tp) = tp / 1000000 := by
  obtain ⟨year, mon, day, second, hz, hmon, hday, hearly, hlate, hfirst, hlast, hsecond, hcalendar⟩ :=
    h.date
  have hdays := daysFromCivil_eq hz hmon hday hearly hlate
  rw [hcalendar, timepoint]
  dsimp only
  rw [hdays]
  omega

theorem IsTimePoint.inRange {tp : Int} (h : IsTimePoint tp) : (calendarTime tp).InRange := by
  obtain ⟨year, mon, day, second, -, hmon, hday, hearly, hlate, hfirst, hlast, -, hcalendar⟩ :=
    h.date
  have hday31 := hday.trans_le (monthLength_le _ _)
  rw [hcalendar]
  constructor <;> dsimp only <;> omega

end Calendar

/-! ## The text -/

section Text
variable {mem : Bytes} {b e : Int}

theorem span_part {text : Bytes} (before part after : Bytes)
    (h : (span mem b e : Result Bytes) = .ok text) (htext : text = before ++ part ++ after) :
    (span mem (b + before.length) (b + before.length + part.length) : Result Bytes) = .ok part := by
  subst htext
  unfold span at h
  by_cases hempty : e ≤ b
  · rw [if_pos hempty] at h
    have hnil : before = [] ∧ part = [] := by
      have hall := Except.ok.inj h
      simp only [List.nil_eq, List.append_eq_nil_iff] at hall
      exact hall.1
    rw [hnil.2, span, if_pos (by simp)]
  rw [if_neg hempty] at h
  by_cases hout : b < 0 ∨ (mem.length : Int) < e
  · rw [if_pos hout] at h
    cases h
  rw [if_neg hout] at h
  obtain ⟨n, rfl⟩ := Int.eq_ofNat_of_zero_le (not_lt.mp (not_or.mp hout).1)
  have htake := Except.ok.inj h
  rw [Int.toNat_natCast] at htake
  obtain ⟨rest, hdrop⟩ : ∃ rest, mem.drop n = before ++ (part ++ rest) := by
    refine ⟨after ++ (mem.drop n).drop (e - n).toNat, ?_⟩
    conv_lhs => rw [← List.take_append_drop (e - n).toNat (mem.drop n), htake]
    simp only [List.append_assoc]
  have hpart : mem.drop (n + before.length) = part ++ rest := by
    rw [← List.drop_drop, hdrop, List.drop_left]
  rw [← Nat.cast_add, ← Nat.cast_add]
  exact span_of_drop _ hpart rfl

theorem asInt_part {text : Bytes} {n p q : Int} (width : Nat) (before after : Bytes)
    (h : (span mem b e : Result Bytes) = .ok text)
    (htext : text = before ++ itoaPadded width n ++ after) (hp : p = b + before.length)
    (hq : q = p + width) (hn : 0 ≤ n ∧ n < 10 ^ width) (hwidth : width ≤ 9) :
    asInt mem ⟨p, q⟩ = .ok n := by
  have hspan := span_part before (itoaPadded width n) after h htext
  rw [length_itoaPadded, ← hp, ← hq] at hspan
  exact asInt_itoaPadded hn.1 hn.2 hwidth hspan

theorem asParts_timestampText {t : Timestamp} (ht : t.InRange) (he : e = b + 21)
    (h : (span mem b e : Result Bytes) = .ok (timestampText t)) :
    asParts mem ⟨b, e⟩ = .ok (some t) := by
  have hlen : ∀ width n, (itoaPadded width n).length = width := length_itoaPadded
  have hyear : asInt mem ⟨b, b + 4⟩ = .ok t.year :=
    asInt_part 4 [] _ h (by simp only [timestampText, List.append_assoc, List.nil_append]; rfl)
      (by simp) (by simp) ht.year (by decide)
  have hmonth : asInt mem ⟨b + 4, b + 6⟩ = .ok t.month :=
    asInt_part 2 (itoaPadded 4 t.year) _ h (by simp only [timestampText, List.append_assoc]; rfl)
      (by simp [hlen]) (by simp; ring) ht.month (by decide)
  have hday : asInt mem ⟨b + 6, b + 8⟩ = .ok t.day :=
    asInt_part 2 (itoaPadded 4 t.year ++ itoaPadded 2 t.month) _ h
      (by simp only [timestampText, List.append_assoc]; rfl) (by simp [hlen]) (by simp; ring) ht.day
      (by decide)
  let date := itoaPadded 4 t.year ++ itoaPadded 2 t.month ++ itoaPadded 2 t.day ++ [45]
  have hhour : asInt mem ⟨b + 9, b + 9 + 2⟩ = .ok t.hour :=
    asInt_part 2 date _ h (by simp only [timestampText, date, List.append_assoc]; rfl)
      (by simp [date, hlen]) (by simp) ht.hour (by decide)
  have hminute : asInt mem ⟨b + 9 + 3, b + 9 + 5⟩ = .ok t.minute :=
    asInt_part 2 (date ++ itoaPadded 2 t.hour ++ [58]) _ h
      (by simp only [timestampText, date, List.append_assoc]; rfl) (by simp [date, hlen]; ring)
      (by simp; ring) ht.minute (by decide)
  have hsecond : asInt mem ⟨b + 9 + 6, b + 9 + 8⟩ = .ok t.second :=
    asInt_part 2 (date ++ itoaPadded 2 t.hour ++ [58] ++ itoaPadded 2 t.minute ++ [58]) _ h
      (by simp only [timestampText, date, List.append_assoc]; rfl) (by simp [date, hlen]; ring)
      (by simp; ring) ht.second (by decide)
  have hmilli : asInt mem ⟨b + 9 + 9, b + 9 + 12⟩ = .ok t.millisecond :=
    asInt_part 3 (date ++ itoaPadded 2 t.hour ++ [58] ++ itoaPadded 2 t.minute ++ [58] ++
        itoaPadded 2 t.second ++ [46]) [] h
      (by simp only [timestampText, date, List.append_assoc, List.append_nil])
      (by simp [date, hlen]; ring) (by simp; ring) ht.millisecond (by decide)
  have htime : atotime mem ⟨b + 9, e⟩ = .ok (some (t.hour, t.minute, t.second, t.millisecond)) := by
    unfold atotime
    dsimp only
    rw [if_neg (by omega), hhour, hminute, hsecond]
    simp only [Bind.bind, Except.bind]
    rw [if_pos (by omega), hmilli]
    rfl
  have hdate : atodate mem ⟨b, b + 8⟩ = .ok (some (t.year, t.month, t.day)) := by
    unfold atodate
    dsimp only
    rw [if_neg (by omega), hyear, hmonth, hday]
    rfl
  unfold asParts
  dsimp only
  rw [htime]
  simp only [Bind.bind, Except.bind]
  rw [hdate]
  rfl

theorem asTimePoint_timepointtoparts {tp : Int} (htp : IsTimePoint tp) (he : e = b + 21)
    (h : (span mem b e : Result Bytes) = .ok (timestampText (timepointtoparts tp))) :
    asTimePoint mem ⟨b, e⟩ = .ok (some (tp / 1000000)) := by
  rw [timepointtoparts_eq htp] at h
  unfold asTimePoint
  rw [asParts_timestampText htp.inRange he h, ← timepoint_calendarTime htp]
  rfl

/-- A time point is written with the date and the time of day that the calendar gives it, and is
read back to the millisecond. -/
theorem timepointtoparts_calendar {tp : Int} (htp : IsTimePoint tp) :
    timepointtoparts tp = calendarTime tp ∧
      ∀ (mem : Bytes) (b : Int),
        (span mem b (b + 21) : Result Bytes) = .ok (timestampText (timepointtoparts tp)) →
        asTimePoint mem ⟨b, b + 21⟩ = .ok (some (tp / 1000000)) :=
  ⟨timepointtoparts_eq htp, fun _ _ h => asTimePoint_timepointtoparts htp rfl h⟩

theorem timepointtoparts_calendar_leap_day :
    timepointtoparts 1709210096123456789 = calendarTime 1709210096123456789 ∧
      ∀ (mem : Bytes) (b : Int), (span mem b (b + 21) : Result Bytes) =
          .ok (timestampText (timepointtoparts 1709210096123456789)) →
        asTimePoint mem ⟨b, b + 21⟩ = .ok (some (1709210096123456789 / 1000000)) :=
  timepointtoparts_calendar ⟨by decide, by decide⟩

end Text

/-! ## The handlers' test -/

section Test
variable (mem : Bytes)

theorem span_of_lt {p q : Int} (h : p < q) : (span mem p q : Result Bytes) =
    if 0 ≤ p ∧ q ≤ mem.length then .ok ((mem.drop p.toNat).take (q - p).toNat)
    else .error .undefined := by
  rw [span, if_neg (not_le.mpr h)]
  by_cases hin : 0 ≤ p ∧ q ≤ mem.length
  · rw [if_pos hin, if_neg (by omega)]
  · rw [if_neg hin, if_pos (by omega)]

theorem asInt_cases (p q : Int) (h : p < q) :
    ((0 ≤ p ∧ q ≤ mem.length) ∧ ∃ n, asInt mem ⟨p, q⟩ = .ok n) ∨
      (¬(0 ≤ p ∧ q ≤ mem.length) ∧ asInt mem ⟨p, q⟩ = .error .undefined) := by
  by_cases hin : 0 ≤ p ∧ q ≤ mem.length
  · refine .inl ⟨hin, ?_⟩
    unfold asInt
    rw [span_of_lt mem h, if_pos hin]
    simp only [Bind.bind, Except.bind]
    split
    · exact ⟨_, rfl⟩
    · split_ifs
      · exact ⟨_, rfl⟩
      · exact ⟨_, rfl⟩
  · refine .inr ⟨hin, ?_⟩
    unfold asInt
    rw [span_of_lt mem h, if_neg hin]
    rfl

theorem atodate_cases (b : Int) :
    ((0 ≤ b ∧ b + 8 ≤ mem.length) ∧ ∃ d, atodate mem ⟨b, b + 8⟩ = .ok (some d)) ∨
      (¬(0 ≤ b ∧ b + 8 ≤ mem.length) ∧ atodate mem ⟨b, b + 8⟩ = .error .undefined) := by
  unfold atodate
  dsimp only
  rw [if_neg (by omega)]
  rcases asInt_cases mem b (b + 4) (by omega) with ⟨hy, y, hyear⟩ | ⟨hy, hyear⟩
  · rcases asInt_cases mem (b + 4) (b + 6) (by omega) with
      ⟨hm, m, hmonth⟩ | ⟨hm, hmonth⟩
    · rcases asInt_cases mem (b + 6) (b + 8) (by omega) with
        ⟨hd, d, hday⟩ | ⟨hd, hday⟩
      · rw [hyear, hmonth, hday]
        exact .inl ⟨⟨hy.1, hd.2⟩, _, rfl⟩
      · rw [hyear, hmonth, hday]
        exact .inr ⟨by omega, rfl⟩
    · rw [hyear, hmonth]
      exact .inr ⟨by omega, rfl⟩
  · rw [hyear]
    exact .inr ⟨by omega, rfl⟩

theorem atotime_cases (b e : Int) (he : e = b + 8 ∨ e = b + 12) :
    ((0 ≤ b ∧ e ≤ mem.length) ∧ ∃ t, atotime mem ⟨b, e⟩ = .ok (some t)) ∨
      (¬(0 ≤ b ∧ e ≤ mem.length) ∧ atotime mem ⟨b, e⟩ = .error .undefined) := by
  unfold atotime
  dsimp only
  rw [if_neg (by omega)]
  rcases asInt_cases mem b (b + 2) (by omega) with ⟨hh, h, hhour⟩ | ⟨hh, hhour⟩
  · rcases asInt_cases mem (b + 3) (b + 5) (by omega) with
      ⟨hm, m, hminute⟩ | ⟨hm, hminute⟩
    · rcases asInt_cases mem (b + 6) (b + 8) (by omega) with
        ⟨hs, s, hsecond⟩ | ⟨hs, hsecond⟩
      · rw [hhour, hminute, hsecond]
        simp only [Bind.bind, Except.bind]
        rcases he with rfl | rfl
        · rw [if_neg (by omega)]
          exact .inl ⟨⟨hh.1, hs.2⟩, _, rfl⟩
        · rw [if_pos (by omega)]
          rcases asInt_cases mem (b + 9) (b + 12) (by omega) with
            ⟨hms, ms, hmilli⟩ | ⟨hms, hmilli⟩
          · rw [hmilli]
            exact .inl ⟨⟨hh.1, hms.2⟩, _, rfl⟩
          · rw [hmilli]
            exact .inr ⟨by omega, rfl⟩
      · rw [hhour, hminute, hsecond]
        exact .inr ⟨by omega, rfl⟩
    · rw [hhour, hminute]
      exact .inr ⟨by omega, rfl⟩
  · rw [hhour]
    exact .inr ⟨by omega, rfl⟩

theorem asTimestamp_eq (v : FieldValue) :
    asTimestamp mem v = (asTimePoint mem v).map Option.isSome := by
  obtain ⟨b, e⟩ := v
  unfold asTimestamp asTimePoint asParts
  dsimp only
  by_cases hlen : e - b = 17 ∨ e - b = 21
  · rw [if_pos hlen, span_of_lt mem (by omega)]
    rcases atotime_cases mem (b + 9) e (by omega) with
      ⟨ht, t, htime⟩ | ⟨ht, htime⟩
    · rcases atodate_cases mem b with ⟨hd, d, hdate⟩ | ⟨hd, hdate⟩
      · rw [htime, if_pos ⟨hd.1, ht.2⟩]
        simp only [Bind.bind, Except.bind]
        rw [hdate]
        rfl
      · rw [htime, if_neg (by omega)]
        simp only [Bind.bind, Except.bind]
        rw [hdate]
        rfl
    · rw [htime, if_neg (by omega)]
      rfl
  · have htime : atotime mem ⟨b + 9, e⟩ = .ok none := by
      unfold atotime
      exact if_pos (by dsimp only; omega)
    rw [if_neg hlen, htime]
    rfl

end Test

end Warhead.Hffix
