import WarheadFix.Lib.Calendar

/-! Dates by arithmetic. In years that begin with March the leap day is the last day of its
year, so that the days before a month and the days before a year are given by divisions, which
can be undone by divisions. The dates are those of the calendar. -/

namespace Warhead.Lib.Civil
open Calendar Pieces

def dayOfEra (yoe doy : Nat) : Nat := yoe * 365 + yoe / 4 - yoe / 100 + doy

def yearOfEra (doe : Nat) : Nat := (doe - doe / 1460 + doe / 36524 - doe / 146096) / 365

def daysBefore (mp : Nat) : Nat := (153 * mp + 2) / 5

def monthOf (doy : Nat) : Nat := (5 * doy + 2) / 153

def yearDays (yoe : Nat) : Nat :=
  if (yoe + 1) % 4 = 0 ∧ ((yoe + 1) % 100 ≠ 0 ∨ yoe = 399) then 366 else 365

def monthDays (mp : Nat) : Nat :=
  if mp = 1 ∨ mp = 3 ∨ mp = 6 ∨ mp = 8 then 30 else if mp = 11 then 29 else 31

variable {yoe doy mp d : Nat}

theorem exists_parts (hyear : yoe < 400) : ∃ c q r, yoe = 100 * c + 4 * q + r ∧ c < 4 ∧ q < 25 ∧
    r < 4 :=
  ⟨yoe / 100, yoe % 100 / 4, yoe % 4, by omega, by omega, by omega, by omega⟩

theorem dayOfEra_parts {c q r : Nat} (hyoe : yoe = 100 * c + 4 * q + r) (hq : q < 25) (hr : r < 4) :
    dayOfEra yoe doy = 36524 * c + 1461 * q + 365 * r + doy := by
  have hfour : yoe / 4 = 25 * c + q := by omega
  have hhundred : yoe / 100 = c := by omega
  rw [dayOfEra, hfour, hhundred]
  omega

theorem yearOfEra_dayOfEra (hyear : yoe < 400) (hday : doy < yearDays yoe) :
    yearOfEra (dayOfEra yoe doy) = yoe := by
  obtain ⟨c, q, r, hyoe, hc, hq, hr⟩ := exists_parts hyear
  have hday' : doy < 365 ∨ (doy = 365 ∧ r = 3 ∧ (q < 24 ∨ c = 3)) := by
    unfold yearDays at hday
    split_ifs at hday <;> omega
  rw [dayOfEra_parts hyoe hq hr]
  set doe := 36524 * c + 1461 * q + 365 * r + doy with hdoe
  by_cases hlast : c = 3 ∧ q = 24 ∧ r = 3 ∧ doy = 365
  · -- the last day of the era
    have hday : doe = 146096 := by omega
    rw [hday]
    change 399 = yoe
    omega
  · have hera : doe / 146096 = 0 := by omega
    have hcentury : doe / 36524 = c := by omega
    have hleap : doe / 1460 = 25 * c + q + (24 * c + q + 365 * r + doy) / 1460 := by omega
    have hrest : doe - doe / 1460 + doe / 36524 - doe / 146096 =
        365 * yoe + (doy - (24 * c + q + 365 * r + doy) / 1460) := by omega
    rw [yearOfEra, hrest]
    omega

theorem dayOfEra_lt (hyear : yoe < 400) (hday : doy < yearDays yoe) :
    dayOfEra yoe doy < 146097 := by
  obtain ⟨c, q, r, hyoe, hc, hq, hr⟩ := exists_parts hyear
  rw [dayOfEra_parts hyoe hq hr]
  unfold yearDays at hday
  split_ifs at hday <;> omega

theorem yearDays_le (yoe : Nat) : yearDays yoe ≤ 366 := by
  unfold yearDays
  split_ifs <;> decide

theorem monthOf_daysBefore (hmonth : mp < 12) (hday : d < monthDays mp) :
    monthOf (daysBefore mp + d) = mp := by
  unfold monthOf daysBefore
  unfold monthDays at hday
  split_ifs at hday <;> interval_cases mp <;> omega

/-! ## The calendar -/

def marchYear (year : Int) (mon : Nat) : Int := if mon < 2 then year - 1 else year

def marchMonth (mon : Nat) : Nat := if mon < 2 then mon + 10 else mon - 2

def eraYear (year : Int) : Nat := (year % 400).toNat

section Date
variable {year : Int} {mon day : Nat}

theorem marchMonth_lt (hmon : mon < 12) : marchMonth mon < 12 := by
  unfold marchMonth
  split_ifs <;> omega

theorem eraYear_lt (year : Int) : eraYear year < 400 := by
  unfold eraYear
  omega

theorem leap_iff (year : Int) : leap year = true ↔ year % 4 = 0 ∧ (year % 100 ≠ 0 ∨ year % 400 = 0) :=
  decide_eq_true_iff

theorem yearDays_eraYear (year : Int) :
    yearDays (eraYear year) = yearLength (leap (year + 1)) := by
  have hleap := leap_iff (year + 1)
  unfold yearDays yearLength eraYear
  by_cases h : leap (year + 1) = true
  · have hcond := hleap.mp h
    rw [if_pos h, if_pos (by omega)]
  · have hcond := mt hleap.mpr h
    rw [if_neg h, if_neg (by omega)]

theorem day_lt_monthDays (hday : day < monthLength (leap year) mon) (hmon : mon < 12) :
    day < monthDays (marchMonth mon) := by
  unfold monthLength at hday
  unfold monthDays marchMonth
  split_ifs at hday ⊢ <;> omega

theorem doy_lt_yearDays (hday : day < monthLength (leap year) mon) (hmon : mon < 12) :
    daysBefore (marchMonth mon) + day < yearDays (eraYear (marchYear year mon)) := by
  have hshort : 365 ≤ yearDays (eraYear (marchYear year mon)) := by
    unfold yearDays
    split_ifs <;> decide
  by_cases hfeb : mon = 1
  · have hyear : marchYear year mon + 1 = year := by
      rw [marchYear, if_pos (by omega)]
      omega
    rw [yearDays_eraYear, hyear, hfeb]
    rw [hfeb] at hday
    cases hleap : leap year <;> rw [hleap] at hday
    · change 337 + day < 365
      change day < 28 at hday
      omega
    · change 337 + day < 366
      change day < 29 at hday
      omega
  · have hday31 := hday.trans_le (monthLength_le _ _)
    refine lt_of_lt_of_le ?_ hshort
    unfold daysBefore marchMonth
    split_ifs <;> omega

def daysBeforeYear (year : Int) : Int := 365 * year + year / 4 - year / 100 + year / 400

theorem era_days (year : Int) (doy : Nat) :
    146097 * (year / 400) + dayOfEra (eraYear year) doy = daysBeforeYear year + doy := by
  have hera : (eraYear year : Int) = year % 400 := by
    unfold eraYear
    omega
  have hfour : year / 4 = 100 * (year / 400) + year % 400 / 4 := by omega
  have hhundred : year / 100 = 4 * (year / 400) + year % 400 / 100 := by omega
  have hdoe : (dayOfEra (eraYear year) doy : Int) =
      year % 400 * 365 + year % 400 / 4 - year % 400 / 100 + doy := by
    unfold dayOfEra
    omega
  rw [hdoe, daysBeforeYear, hfour, hhundred]
  omega

theorem daysBeforeYear_succ (year : Int) : daysBeforeYear (year + 1) =
    daysBeforeYear year + 365 + (if leap (year + 1) = true then 1 else 0) := by
  have hleap := leap_iff (year + 1)
  unfold daysBeforeYear
  split_ifs with h
  · have hcond := hleap.mp h
    omega
  · have hcond := mt hleap.mpr h
    omega

theorem daysBeforeYear_cycle (year e : Int) :
    daysBeforeYear (year + 400 * e) = daysBeforeYear year + 146097 * e := by
  unfold daysBeforeYear
  omega

theorem start_years (k : Nat) : (start years k : Int) = daysBeforeYear (1969 + k) - 719162 := by
  induction k with
  | zero => rfl
  | succ k ih =>
    have hyear : (1969 : Int) + (k + 1 : Nat) = 1969 + k + 1 := by omega
    have hlong : (years k : Int) = 365 + (if leap (1969 + k + 1) = true then 1 else 0) := by
      have hsame : (1970 : Int) + k = 1969 + k + 1 := by omega
      unfold years yearLength
      rw [hsame]
      split_ifs <;> rfl
    rw [start, Nat.cast_add, ih, hlong, hyear, daysBeforeYear_succ]
    omega

theorem start_monthLength (long : Bool) (hmon : mon < 12) :
    start (monthLength long) mon =
      if mon < 2 then 31 * mon
      else 59 + (if long then 1 else 0) + daysBefore (marchMonth mon) := by
  cases long <;> interval_cases mon <;> rfl

theorem days_eq (day : Nat) (e : Int) (k : Nat) (hmon : mon < 12)
    (hyear : year = 1969 + k + 1 + 400 * e) :
    146097 * e + start years k + start (monthLength (leap year)) mon + day + 719468 =
      146097 * (marchYear year mon / 400) +
        dayOfEra (eraYear (marchYear year mon)) (daysBefore (marchMonth mon) + day) := by
  have hstart := start_years k
  have hbefore : daysBeforeYear (year - 1) = daysBeforeYear (1969 + k) + 146097 * e := by
    rw [← daysBeforeYear_cycle, hyear]
    congr 1
    omega
  rw [era_days, start_monthLength _ hmon]
  by_cases hearly : mon < 2
  · have hdays : daysBefore (marchMonth mon) = 306 + 31 * mon := by
      interval_cases mon <;> rfl
    rw [if_pos hearly, hdays, marchYear, if_pos hearly, hbefore]
    push_cast
    omega
  · have hnext := daysBeforeYear_succ (year - 1)
    rw [Int.sub_add_cancel] at hnext
    rw [if_neg hearly, marchYear, if_neg hearly, hnext, hbefore]
    push_cast
    split_ifs <;> omega

end Date

end Warhead.Lib.Civil
