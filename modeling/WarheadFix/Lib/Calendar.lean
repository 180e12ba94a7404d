import Mathlib

/-! Broken-down times. A line is divided into pieces of different lengths, and a place on it is
found by its piece and how far into the piece it lies: the days of a year by months, and the days
of 400 years, after which the calendar repeats, by years. -/

namespace Warhead.Lib

namespace Pieces
variable {len : Nat → Nat} {n d lo k : Nat}

def start (len : Nat → Nat) : Nat → Nat
  | 0 => 0
  | k + 1 => start len k + len k

def piece (len : Nat → Nat) (n d : Nat) : Nat := Nat.findGreatest (fun k => start len k ≤ d) n

theorem start_piece_le : start len (piece len n d) ≤ d :=
  Nat.findGreatest_spec (P := fun k => start len k ≤ d) (Nat.zero_le n) (Nat.zero_le d)

theorem piece_le : piece len n d ≤ n := Nat.findGreatest_le n

theorem lt_start_piece (h : d < start len (n + 1)) : d < start len (piece len n d + 1) := by
  rcases piece_le.eq_or_lt with hlast | hinner
  · rw [hlast]
    exact h
  · have hnext : ¬ start len (piece len n d + 1) ≤ d :=
      Nat.findGreatest_is_greatest (P := fun k => start len k ≤ d) (Nat.lt_succ_self _) hinner
    exact Nat.not_le.mp hnext

theorem mul_le_start (hlo : ∀ k, lo ≤ len k) (k : Nat) : lo * k ≤ start len k := by
  induction k with
  | zero => exact Nat.le_refl 0
  | succ k ih => exact Nat.add_le_add ih (hlo k)

theorem lt_start_of_shortest (hpos : 0 < lo) (hlo : ∀ k, lo ≤ len k) :
    d < start len (d / lo + 1) :=
  (Nat.lt_mul_div_succ d hpos).trans_le (mul_le_start hlo _)

theorem start_mono : Monotone (start len) :=
  monotone_nat_of_le_succ fun _ => Nat.le_add_right _ _

theorem lt_of_start_lt (h : start len k < start len n) : k < n := start_mono.reflect_lt h

end Pieces

namespace Calendar
open Pieces

def leap (year : Int) : Bool := decide (year % 4 = 0 ∧ (year % 100 ≠ 0 ∨ year % 400 = 0))

def yearLength (leap : Bool) : Nat := if leap then 366 else 365

def monthLength (leap : Bool) (mon : Nat) : Nat :=
  if mon = 1 then (if leap then 29 else 28)
  else if mon = 3 ∨ mon = 5 ∨ mon = 8 ∨ mon = 10 then 30
  else 31

def years (k : Nat) : Nat := yearLength (leap (1970 + k))

structure Tm where
  tm_sec : Int
  tm_min : Int
  tm_hour : Int
  tm_mday : Int
  tm_mon : Int
  tm_year : Int
  tm_wday : Int
  deriving DecidableEq, Repr

/-- A fixed distance from UTC, east being positive, of less than 25 hours. -/
structure Zone where
  offset : Int
  bound : -90000 < offset ∧ offset < 90000

def localtime (zone : Zone) (time : Int) : Tm :=
  let day := (time + zone.offset) / 86400
  let second := (time + zone.offset) % 86400
  let inCycle := (day % 146097).toNat
  let k := piece years (inCycle / 365) inCycle
  let year := 1970 + 400 * (day / 146097) + k
  let yday := inCycle - start years k
  let mon := piece (monthLength (leap year)) 11 yday
  { tm_sec := second % 60
    tm_min := second / 60 % 60
    tm_hour := second / 3600
    tm_mday := (yday - start (monthLength (leap year)) mon : Nat) + 1
    tm_mon := mon
    tm_year := year - 1900
    tm_wday := (day + 4) % 7 }

/-- Members out of their range count on from the others; the day of the week is not looked at. -/
def mktime (zone : Zone) (tm : Tm) : Int :=
  let year := tm.tm_year + 1900 + tm.tm_mon / 12
  let mon := (tm.tm_mon % 12).toNat
  let k := ((year - 1970) % 400).toNat
  let day := 146097 * ((year - 1970) / 400) + start years k +
    start (monthLength (leap year)) mon + (tm.tm_mday - 1)
  86400 * day + 3600 * tm.tm_hour + 60 * tm.tm_min + tm.tm_sec - zone.offset

theorem leap_cycle (year e : Int) : leap (year + 400 * e) = leap year := by
  have h4 : (year + 400 * e) % 4 = year % 4 := by omega
  have h100 : (year + 400 * e) % 100 = year % 100 := by omega
  have h400 : (year + 400 * e) % 400 = year % 400 := by omega
  rw [leap, leap, h4, h100, h400]

theorem le_years (k : Nat) : 365 ≤ years k := by
  unfold years yearLength
  split_ifs <;> decide

theorem start_cycle : start years 400 = 146097 := by decide +kernel

theorem start_months (leap : Bool) : start (monthLength leap) 12 = yearLength leap := by
  cases leap <;> rfl

theorem monthLength_le (leap : Bool) (mon : Nat) : monthLength leap mon ≤ 31 := by
  unfold monthLength
  split_ifs <;> decide

variable {zone : Zone} {time : Int}

theorem exists_localtime (zone : Zone) (time : Int) :
    ∃ (e : Int) (k mon day : Nat) (second : Int), k < 400 ∧ mon < 12 ∧
      day < monthLength (leap (1970 + 400 * e + k)) mon ∧ 0 ≤ second ∧ second < 86400 ∧
      time + zone.offset = 86400 * (146097 * e + start years k +
        start (monthLength (leap (1970 + 400 * e + k))) mon + day) + second ∧
      localtime zone time = ⟨second % 60, second / 60 % 60, second / 3600, day + 1, mon,
        1970 + 400 * e + k - 1900, ((time + zone.offset) / 86400 + 4) % 7⟩ := by
  set day := (time + zone.offset) / 86400 with hday
  set inCycle := (day % 146097).toNat with hinCycle
  set k := piece years (inCycle / 365) inCycle with hk
  set yday := inCycle - start years k with hyday
  set long := leap (1970 + 400 * (day / 146097) + k) with hlong
  set mon := piece (monthLength long) 11 yday with hmon
  have hcycle : inCycle < start years 400 := by
    rw [start_cycle]
    omega
  have hfirst : start years k ≤ inCycle := start_piece_le
  have hlast : inCycle < start years (k + 1) :=
    lt_start_piece (lt_start_of_shortest (by decide) le_years)
  have hyear : yday < start (monthLength long) 12 := by
    have hsame : years k = yearLength long := by
      rw [hlong, Int.add_right_comm, leap_cycle]
      rfl
    rw [start_months, ← hsame]
    exact Nat.sub_lt_left_of_lt_add hfirst hlast
  have hmonth : start (monthLength long) mon ≤ yday := start_piece_le
  have hend : yday < start (monthLength long) (mon + 1) := lt_start_piece hyear
  refine ⟨day / 146097, k, mon, yday - start (monthLength long) mon,
    (time + zone.offset) % 86400, lt_of_start_lt (hfirst.trans_lt hcycle),
    Nat.lt_succ_of_le piece_le, Nat.sub_lt_left_of_lt_add hmonth hend, ?_, ?_, ?_, rfl⟩
  · exact Int.emod_nonneg _ (by decide)
  · exact Int.emod_lt_of_pos _ (by decide)
  · have hsplit : (inCycle : Int) = start years k + start (monthLength long) mon +
        (yday - start (monthLength long) mon : Nat) := by omega
    have hdays : day = 146097 * (day / 146097) + inCycle := by omega
    rw [← hlong]
    omega

theorem mktime_localtime : mktime zone (localtime zone time) = time := by
  obtain ⟨e, k, mon, day, second, hk, hmon, -, -, -, htime, hlocal⟩ := exists_localtime zone time
  have hyear : 1970 + 400 * e + k - 1900 + 1900 + (mon : Int) / 12 = 1970 + 400 * e + k := by omega
  have hmonth : ((mon : Int) % 12).toNat = mon := by omega
  have hinCycle : ((1970 + 400 * e + (k : Int) - 1970) % 400).toNat = k := by omega
  have hcycle : (1970 + 400 * e + (k : Int) - 1970) / 400 = e := by omega
  rw [hlocal, mktime]
  simp only [hyear, hmonth, hinCycle, hcycle]
  omega

theorem localtime_range (zone : Zone) (time : Int) :
    0 ≤ (localtime zone time).tm_sec ∧ (localtime zone time).tm_sec < 60 ∧
    0 ≤ (localtime zone time).tm_min ∧ (localtime zone time).tm_min < 60 ∧
    0 ≤ (localtime zone time).tm_hour ∧ (localtime zone time).tm_hour < 24 ∧
    1 ≤ (localtime zone time).tm_mday ∧ (localtime zone time).tm_mday ≤ 31 ∧
    0 ≤ (localtime zone time).tm_mon ∧ (localtime zone time).tm_mon < 12 ∧
    0 ≤ (localtime zone time).tm_wday ∧ (localtime zone time).tm_wday < 7 := by
  obtain ⟨e, k, mon, day, second, -, hmon, hday, hfirst, hlast, -, hlocal⟩ :=
    exists_localtime zone time
  have hlength := monthLength_le (leap (1970 + 400 * e + k)) mon
  rw [hlocal]
  dsimp only
  omega

theorem start_le_of_year {n : Nat} (hn : n ≤ 400) (h : 70 + n ≤ (localtime zone time).tm_year) :
    86400 * (start years n : Int) ≤ time + zone.offset := by
  obtain ⟨e, k, mon, day, second, hk, -, -, hfirst, -, htime, hlocal⟩ := exists_localtime zone time
  rw [hlocal] at h
  dsimp only at h
  have hcycle : start years n ≤ start years 400 := start_mono hn
  rw [start_cycle] at hcycle
  have hstart : (start years n : Int) ≤ 146097 * e + start years k := by
    rcases lt_trichotomy e 0 with he | he | he
    · omega
    · have hnk : start years n ≤ start years k := start_mono (by omega)
      omega
    · omega
  omega

theorem lt_start_of_year {n : Nat} (hn : n ≤ 400) (h : (localtime zone time).tm_year < 70 + n) :
    time + zone.offset < 86400 * (start years n : Int) := by
  obtain ⟨e, k, mon, day, second, hk, hmon, hday, -, hlast, htime, hlocal⟩ :=
    exists_localtime zone time
  rw [hlocal] at h
  dsimp only at h
  have hyear : start (monthLength (leap (1970 + 400 * e + k))) mon + day < years k := by
    have hmonth : start (monthLength (leap (1970 + 400 * e + k))) (mon + 1) ≤
        start (monthLength (leap (1970 + 400 * e + k))) 12 := start_mono hmon
    rw [start_months, Int.add_right_comm, leap_cycle] at hmonth
    rw [Int.add_right_comm, leap_cycle] at hday ⊢
    exact (Nat.add_lt_add_left hday _).trans_le hmonth
  have hnext : start years (k + 1) = start years k + years k := rfl
  have hstart : 146097 * e + start years (k + 1) ≤ start years n := by
    rcases lt_trichotomy e 0 with he | he | he
    · have hk' : start years (k + 1) ≤ start years 400 := start_mono hk
      rw [start_cycle] at hk'
      omega
    · have hkn : start years (k + 1) ≤ start years n := start_mono (by omega)
      omega
    · omega
  omega

theorem mktime_minute (tm : Tm) :
    mktime zone { tm with tm_sec := 0, tm_wday := 0 } = mktime zone tm - tm.tm_sec := by
  simp only [mktime]
  omega

theorem mktime_midnight (tm : Tm) : mktime zone { tm with tm_hour := 0, tm_min := 0, tm_sec := 0 } =
    mktime zone tm - 3600 * tm.tm_hour - 60 * tm.tm_min - tm.tm_sec := by
  simp only [mktime]
  omega

/-! A zone at any distance from UTC has the broken-down times of UTC, that much later. -/

def utc : Zone := ⟨0, by decide⟩

def localtimeAt (offset time : Int) : Tm := localtime utc (time + offset)

def mktimeAt (offset : Int) (tm : Tm) : Int := mktime utc tm - offset

theorem localtimeAt_zone (zone : Zone) (time : Int) :
    localtimeAt zone.offset time = localtime zone time := by
  have hutc : time + zone.offset + utc.offset = time + zone.offset := Int.add_zero _
  rw [localtimeAt, localtime, localtime, hutc]

theorem mktimeAt_localtimeAt (offset time : Int) :
    mktimeAt offset (localtimeAt offset time) = time := by
  rw [mktimeAt, localtimeAt, mktime_localtime, Int.add_sub_cancel]

theorem localtimeAt_second (offset time : Int) :
    (localtimeAt offset time).tm_hour = (time + offset) % 86400 / 3600 ∧
    (localtimeAt offset time).tm_min = (time + offset) % 86400 / 60 % 60 ∧
    (localtimeAt offset time).tm_sec = (time + offset) % 86400 % 60 := by
  have hutc : time + offset + utc.offset = time + offset := Int.add_zero _
  rw [localtimeAt, localtime, hutc]
  exact ⟨rfl, rfl, rfl⟩

theorem localtimeAt_day {offset time t : Int} (h : (t + offset) / 86400 = (time + offset) / 86400) :
    localtimeAt offset t = { localtimeAt offset time with
      tm_hour := (localtimeAt offset t).tm_hour
      tm_min := (localtimeAt offset t).tm_min
      tm_sec := (localtimeAt offset t).tm_sec } := by
  simp only [localtimeAt, localtime]
  have hutc : ∀ t, t + offset + utc.offset = t + offset := fun t => Int.add_zero _
  simp only [hutc, h]

end Calendar
end Warhead.Lib
