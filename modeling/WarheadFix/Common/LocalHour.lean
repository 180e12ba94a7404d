import WarheadFix.Lib.Calendar

/-! Hours of the local day, in a zone at a fixed distance from UTC. The year of a broken-down time
is an `int`, so a `time_t` that has one is far from its ends and the sums below are exact. -/

namespace Warhead.Time
open Lib Calendar

/-- No time stands for the present one. -/
def timeBreakdown (offset now time : Int) : Tm := localtimeAt offset (if time = 0 then now else time)

def getLocalHourTimestamp (offset now time : Int) (hour : UInt8) (onlyAfterTime : Bool) : Int :=
  let timeLocal : Tm :=
    { timeBreakdown offset now time with tm_hour := 0, tm_min := 0, tm_sec := 0 }
  let midnightLocal := mktimeAt offset timeLocal
  let hourLocal := midnightLocal + hour.toNat * 3600
  if onlyAfterTime ∧ hourLocal ≤ time then hourLocal + 86400 else hourLocal

def AtHour (offset : Int) (hour : UInt8) (t : Int) : Prop :=
  (localtimeAt offset t).tm_hour = hour.toNat ∧ (localtimeAt offset t).tm_min = 0 ∧
    (localtimeAt offset t).tm_sec = 0

def SameDay (offset time t : Int) : Prop :=
  (localtimeAt offset t).tm_year = (localtimeAt offset time).tm_year ∧
    (localtimeAt offset t).tm_mon = (localtimeAt offset time).tm_mon ∧
    (localtimeAt offset t).tm_mday = (localtimeAt offset time).tm_mday

variable {offset now time t : Int} {hour : UInt8}

theorem atHour_iff : AtHour offset hour t ↔ (t + offset) % 86400 = hour.toNat * 3600 := by
  obtain ⟨h, m, s⟩ := localtimeAt_second offset t
  rw [AtHour, h, m, s]
  omega

theorem mktimeAt_midnight : mktimeAt offset
    { localtimeAt offset time with tm_hour := 0, tm_min := 0, tm_sec := 0 } =
      time - (time + offset) % 86400 := by
  obtain ⟨h, m, s⟩ := localtimeAt_second offset time
  have hinverse := mktimeAt_localtimeAt offset time
  rw [mktimeAt] at hinverse ⊢
  rw [mktime_midnight, h, m, s]
  omega

theorem sameDay_iff : SameDay offset time t ↔ (t + offset) / 86400 = (time + offset) / 86400 := by
  constructor
  · rintro ⟨hyear, hmon, hmday⟩
    -- midnight is the same, and what is left is less than a day
    have hsame : mktimeAt offset { localtimeAt offset t with tm_hour := 0, tm_min := 0, tm_sec := 0 } =
        mktimeAt offset { localtimeAt offset time with tm_hour := 0, tm_min := 0, tm_sec := 0 } := by
      simp only [mktimeAt, mktime, hyear, hmon, hmday]
    rw [mktimeAt_midnight, mktimeAt_midnight] at hsame
    omega
  · intro h
    unfold SameDay
    rw [localtimeAt_day h]
    exact ⟨rfl, rfl, rfl⟩

theorem getLocalHourTimestamp_eq (htime : time ≠ 0) (onlyAfterTime : Bool) :
    getLocalHourTimestamp offset now time hour onlyAfterTime =
      if onlyAfterTime ∧ time - (time + offset) % 86400 + hour.toNat * 3600 ≤ time then
        time - (time + offset) % 86400 + hour.toNat * 3600 + 86400
      else time - (time + offset) % 86400 + hour.toNat * 3600 := by
  rw [getLocalHourTimestamp, timeBreakdown, if_neg htime, mktimeAt_midnight]

/-- The next time that it is this hour, or the time that it is this hour on the same day. -/
theorem next_local_hour (offset now time : Int) (htime : time ≠ 0) (hour : UInt8)
    (hhour : hour.toNat < 24) :
    IsLeast {t | time < t ∧ AtHour offset hour t} (getLocalHourTimestamp offset now time hour true) ∧
    ∀ t, t = getLocalHourTimestamp offset now time hour false ↔
      AtHour offset hour t ∧ SameDay offset time t := by
  rw [getLocalHourTimestamp_eq htime, getLocalHourTimestamp_eq htime]
  simp only [true_and, Bool.false_eq_true, false_and, if_false, atHour_iff, sameDay_iff]
  refine ⟨⟨?_, ?_⟩, fun t => ?_⟩
  · change time < _ ∧ _
    split_ifs <;> omega
  · rintro t ⟨hlt, hsharp⟩
    split_ifs <;> omega
  · omega

theorem next_local_hour_west :
    IsLeast {t | -1 < t ∧ AtHour (-18000) 19 t} (getLocalHourTimestamp (-18000) 0 (-1) 19 true) ∧
    ∀ t, t = getLocalHourTimestamp (-18000) 0 (-1) 19 false ↔
      AtHour (-18000) 19 t ∧ SameDay (-18000) (-1) t :=
  next_local_hour (-18000) 0 (-1) (by decide) 19 (by decide)

end Warhead.Time
