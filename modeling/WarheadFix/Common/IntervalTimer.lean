import WarheadFix.Lib.Memory
import WarheadFix.Lib.System

/-! A timer that counts up to an interval. It has neither an interval nor a clock of its own; who
uses it sets the one and tells it how much time has passed. -/

namespace Warhead
open Lib

/-- `a + b` on a `time_t`, undefined where it does not fit. -/
def addTime (a b : Int64) : Outcome Empty Int64 :=
  if -2 ^ 63 ≤ a.toInt + b.toInt ∧ a.toInt + b.toInt < 2 ^ 63 then .ok (a + b)
  else .error .undefined

/-- `a % b` on a `time_t`, undefined where the quotient is. -/
def remTime (a b : Int64) : Outcome Empty Int64 :=
  if b = 0 ∨ (a = Int64.minValue ∧ b = -1) then .error .undefined else .ok (a % b)

structure IntervalTimer where
  interval : Int64
  current : Int64
  deriving DecidableEq

namespace IntervalTimer

def new : IntervalTimer := ⟨0, 0⟩

def update (t : IntervalTimer) (diff : Int64) : Outcome Empty IntervalTimer := do
  let current ← addTime t.current diff
  return { t with current := if current < 0 then 0 else current }

def passed (t : IntervalTimer) : Bool := t.current ≥ t.interval

def reset (t : IntervalTimer) : Outcome Empty IntervalTimer :=
  if t.current ≥ t.interval then do
    let current ← remTime t.current t.interval
    return { t with current := current }
  else return t

def setCurrent (t : IntervalTimer) (current : Int64) : IntervalTimer := { t with current := current }

def setInterval (t : IntervalTimer) (interval : Int64) : IntervalTimer :=
  { t with interval := interval }

/-! ## Time is not lost -/

def tick (t : IntervalTimer) (diff : Int64) : Outcome Empty (Bool × IntervalTimer) := do
  let t ← t.update diff
  if t.passed then return (true, ← t.reset) else return (false, t)

def ticks : IntervalTimer → List Int64 → Outcome Empty IntervalTimer
  | t, [] => return t
  | t, diff :: diffs => do
    let (_, t) ← t.tick diff
    ticks t diffs

def total (diffs : List Int64) : Int := (diffs.map Int64.toInt).sum

def Crosses (interval sum diff : Int) : Prop := ∃ m, sum < m * interval ∧ m * interval ≤ sum + diff

structure Counts (interval : Int64) (sum : Int) (t : IntervalTimer) : Prop where
  interval_eq : t.interval = interval
  current_eq : t.current.toInt = sum % interval.toInt

variable {t : IntervalTimer} {interval diff : Int64} {diffs : List Int64} {sum : Int}

theorem crosses_iff (hinterval : 0 < interval.toInt) (sum diff : Int) :
    Crosses interval.toInt sum diff ↔ interval.toInt ≤ sum % interval.toInt + diff := by
  have hsum := Int.mul_ediv_add_emod sum interval.toInt
  have hlt := Int.emod_lt_of_pos sum hinterval
  constructor
  · rintro ⟨m, hlo, hhi⟩
    have hm : sum / interval.toInt + 1 ≤ m := Int.ediv_lt_of_lt_mul hinterval hlo
    have hmul : (sum / interval.toInt + 1) * interval.toInt ≤ m * interval.toInt :=
      Int.mul_le_mul_of_nonneg_right hm hinterval.le
    rw [Int.add_mul, Int.one_mul, Int.mul_comm] at hmul
    omega
  · intro h
    refine ⟨sum / interval.toInt + 1, ?_, ?_⟩ <;> rw [Int.add_mul, Int.one_mul, Int.mul_comm] <;> omega

theorem update_of_fits (hlo : 0 ≤ t.current.toInt + diff.toInt)
    (hhi : t.current.toInt + diff.toInt < 2 ^ 63) :
    ∃ current, t.update diff = .ok { t with current := current } ∧
      current.toInt = t.current.toInt + diff.toInt := by
  have hsum : (t.current + diff).toInt = t.current.toInt + diff.toInt := by
    rw [Int64.toInt_add]
    apply Int.bmod_eq_of_le <;> omega
  have hnonneg : ¬t.current + diff < 0 := by
    rw [Int64.lt_iff_toInt_lt, hsum]
    exact not_lt.mpr hlo
  refine ⟨t.current + diff, ?_, hsum⟩
  rw [update, addTime, if_pos ⟨by omega, hhi⟩]
  simp only [bind, Except.bind, if_neg hnonneg]
  rfl

theorem reset_of_passed (hinterval : 0 < t.interval.toInt) (h : t.passed = true) :
    t.reset = .ok { t with current := t.current % t.interval } := by
  have hne : ¬(t.interval = 0 ∨ (t.current = Int64.minValue ∧ t.interval = -1)) := by
    rintro (heq | ⟨-, heq⟩) <;> simp [heq] at hinterval
  rw [reset, if_pos (of_decide_eq_true h), remTime, if_neg hne]
  rfl

theorem passed_iff : t.passed = true ↔ t.interval.toInt ≤ t.current.toInt := by
  rw [passed, decide_eq_true_iff, ge_iff_le, Int64.le_iff_toInt_le]

theorem Counts.tick (h : t.Counts interval sum) (hinterval : 0 < interval.toInt) (hsum : 0 ≤ sum)
    (hdiff : 0 ≤ diff.toInt) (hfits : sum + diff.toInt < 2 ^ 63) :
    ∃ passed t', t.tick diff = .ok (passed, t') ∧
      (passed = true ↔ Crosses interval.toInt sum diff.toInt) ∧
      t'.Counts interval (sum + diff.toInt) := by
  obtain ⟨rfl, hcurrent⟩ := h
  have hnonneg := Int.emod_nonneg sum hinterval.ne'
  have hle : sum % t.interval.toInt ≤ sum := by
    have hquot := Int.mul_nonneg hinterval.le (Int.ediv_nonneg hsum hinterval.le)
    have hsplit := Int.mul_ediv_add_emod sum t.interval.toInt
    omega
  have hlo : 0 ≤ t.current.toInt + diff.toInt := by omega
  have hhi : t.current.toInt + diff.toInt < 2 ^ 63 := by omega
  obtain ⟨current, hupdate, hnew⟩ := update_of_fits hlo hhi
  rw [hcurrent] at hnew
  have hmod : (sum + diff.toInt) % t.interval.toInt = current.toInt % t.interval.toInt := by
    rw [hnew, Int.emod_add_emod]
  have hcross := crosses_iff hinterval sum diff.toInt
  rw [← hnew] at hcross
  unfold IntervalTimer.tick
  rw [hupdate]
  cases hpassed : ({ t with current := current } : IntervalTimer).passed with
  | true =>
    refine ⟨true, { t with current := current % t.interval }, ?_, ?_, rfl, ?_⟩
    · simp only [bind, Except.bind, hpassed, if_true]
      rw [reset_of_passed (t := { t with current := current }) hinterval hpassed]
      rfl
    · rw [hcross]
      simpa using passed_iff.mp hpassed
    · rw [hmod]
      exact (Int64.toInt_mod _ _).trans (Int.tmod_eq_emod_of_nonneg (by omega))
  | false =>
    have hearly : ¬t.interval.toInt ≤ current.toInt := by
      rw [← Bool.not_eq_true, passed_iff] at hpassed
      exact hpassed
    refine ⟨false, { t with current := current }, ?_, ?_, rfl, ?_⟩
    · simp only [bind, Except.bind, hpassed]
      rfl
    · rw [hcross]
      simpa using hearly
    · rw [hmod]
      exact (Int.emod_eq_of_lt (by omega : 0 ≤ current.toInt) (by omega)).symm

theorem total_cons : total (diff :: diffs) = diff.toInt + total diffs := List.sum_cons

theorem total_nonneg (hdiffs : ∀ diff ∈ diffs, 0 ≤ diff.toInt) : 0 ≤ total diffs := by
  induction diffs with
  | nil => exact le_rfl
  | cons diff diffs ih =>
    obtain ⟨hdiff, hdiffs⟩ := List.forall_mem_cons.mp hdiffs
    have hrest := ih hdiffs
    rw [total_cons]
    omega

theorem Counts.ticks (h : t.Counts interval sum) (hinterval : 0 < interval.toInt) (hsum : 0 ≤ sum)
    (hdiffs : ∀ diff ∈ diffs, 0 ≤ diff.toInt) (hfits : sum + total diffs < 2 ^ 63) :
    ∃ t', t.ticks diffs = .ok t' ∧ t'.Counts interval (sum + total diffs) := by
  induction diffs generalizing t sum with
  | nil => exact ⟨t, rfl, by simpa [total] using h⟩
  | cons diff diffs ih =>
    obtain ⟨hdiff, hdiffs⟩ := List.forall_mem_cons.mp hdiffs
    have hrest := total_nonneg hdiffs
    rw [total_cons, ← Int.add_assoc] at hfits
    obtain ⟨passed, u, hu, -, hcounts⟩ := h.tick hinterval hsum hdiff (by omega)
    obtain ⟨t', ht', hlast⟩ := ih hcounts (by omega) hdiffs hfits
    refine ⟨t', ?_, ?_⟩
    · rw [IntervalTimer.ticks, hu]
      exact ht'
    · rw [total_cons, ← Int.add_assoc]
      exact hlast

/-- Between two steps the timer is the remainder of the sum of all diffs, and a step passes if and
only if it reaches a multiple of the interval. -/
theorem loses_no_time (interval : Int64) (hinterval : 0 < interval) (diffs : List Int64)
    (diff : Int64) (hdiffs : ∀ diff ∈ diffs, 0 ≤ diff) (hdiff : 0 ≤ diff)
    (hfits : total diffs + diff.toInt < 2 ^ 63) :
    ∃ t passed t', ticks ⟨interval, 0⟩ diffs = .ok t ∧ t.tick diff = .ok (passed, t') ∧
      0 ≤ t.current ∧ t.current < interval ∧ t.current.toInt ≡ total diffs [ZMOD interval.toInt] ∧
      (passed = true ↔ Crosses interval.toInt (total diffs) diff.toInt) := by
  rw [Int64.lt_iff_toInt_lt] at hinterval
  rw [Int64.le_iff_toInt_le] at hdiff
  have hdiffs' : ∀ diff ∈ diffs, 0 ≤ diff.toInt :=
    fun diff hmem => Int64.le_iff_toInt_le.mp (hdiffs diff hmem)
  have hnew : (IntervalTimer.mk interval 0).Counts interval 0 := ⟨rfl, (Int.zero_emod _).symm⟩
  obtain ⟨t, ht, hcounts⟩ := hnew.ticks hinterval le_rfl hdiffs' (by
    have hdiff' : 0 ≤ diff.toInt := hdiff
    omega)
  rw [Int.zero_add] at hcounts
  obtain ⟨passed, t', ht', hpassed, -⟩ := hcounts.tick hinterval (total_nonneg hdiffs') hdiff hfits
  refine ⟨t, passed, t', ht, ht', ?_, ?_, ?_, hpassed⟩
  · rw [Int64.le_iff_toInt_le, hcounts.current_eq]
    exact Int.emod_nonneg _ (ne_of_gt hinterval)
  · rw [Int64.lt_iff_toInt_lt, hcounts.current_eq]
    exact Int.emod_lt_of_pos _ hinterval
  · rw [hcounts.current_eq]
    exact Int.mod_modEq _ _

theorem loses_no_time_skipped :
    ∃ t passed t', ticks ⟨10, 0⟩ [4, 29] = .ok t ∧ t.tick 7 = .ok (passed, t') ∧
      0 ≤ t.current ∧ t.current < 10 ∧
      t.current.toInt ≡ total [4, 29] [ZMOD (10 : Int64).toInt] ∧
      (passed = true ↔ Crosses (10 : Int64).toInt (total [4, 29]) (7 : Int64).toInt) :=
  loses_no_time 10 (by decide) [4, 29] 7 (by simp) (by decide) (by decide)

/-! ## Division by zero -/

inductive Call where
  | update (diff : Int64)
  | setCurrent (current : Int64)
  | setInterval (interval : Int64)
  | passed
  | reset

def call (t : IntervalTimer) : Call → Outcome Empty IntervalTimer
  | .update diff => t.update diff
  | .setCurrent current => .ok (t.setCurrent current)
  | .setInterval interval => .ok (t.setInterval interval)
  | .passed => .ok t
  | .reset => t.reset

def nextInterval (last : Int64) : Call → Int64
  | .setInterval interval => interval
  | _ => last

def lastInterval (calls : List Call) : Int64 := calls.foldl nextInterval 0

def operated : System IntervalTimer Call := ⟨new, fun t c => (t.call c).toOption⟩

theorem interval_call {c : Call} {t' : IntervalTimer} (h : t.call c = .ok t') :
    t'.interval = nextInterval t.interval c := by
  cases c with
  | update diff =>
    obtain ⟨current, -, h⟩ := bind_eq_ok.mp h
    exact Except.ok.inj h ▸ rfl
  | setCurrent current => exact Except.ok.inj h ▸ rfl
  | setInterval interval => exact Except.ok.inj h ▸ rfl
  | passed => exact Except.ok.inj h ▸ rfl
  | reset =>
    simp only [call, reset] at h
    split_ifs at h
    · obtain ⟨current, -, h⟩ := bind_eq_ok.mp h
      exact Except.ok.inj h ▸ rfl
    · exact Except.ok.inj h ▸ rfl

theorem interval_eq_lastInterval {calls : List Call} {t' : IntervalTimer}
    (h : operated.runFrom t calls = some t') :
    t'.interval = calls.foldl nextInterval t.interval := by
  induction calls generalizing t with
  | nil => exact congrArg _ (Option.some.inj h).symm
  | cons c calls ih =>
    obtain ⟨m, hm, hrest⟩ := System.runFrom_cons.mp h
    have hcall : t.call c = .ok m := by
      revert hm
      change (t.call c).toOption = some m → _
      cases t.call c with
      | error e => exact nofun
      | ok a => exact fun hm => congrArg _ (Option.some.inj hm)
    rw [ih hrest, interval_call hcall, List.foldl_cons]

theorem reset_isOk_iff : (∃ t', t.reset = .ok t') ↔ (t.interval ≤ t.current → t.interval ≠ 0) := by
  unfold reset remTime
  split_ifs with hpassed hdiv
  · -- the quotient of the least value by -1 is never taken, for that value is less than -1
    have hzero : t.interval = 0 := by
      rcases hdiv with hzero | ⟨hmin, hone⟩
      · exact hzero
      · rw [hmin, hone] at hpassed
        exact absurd hpassed (by decide)
    exact ⟨nofun, fun h => absurd hzero (h hpassed)⟩
  · exact ⟨fun _ _ hzero => hdiv (.inl hzero), fun _ => ⟨_, rfl⟩⟩
  · exact ⟨fun _ h => absurd h hpassed, fun _ => ⟨t, rfl⟩⟩

/-- In every state that a run of calls reaches, `Reset` does not divide by zero if and only if the
interval that was set last is not zero or the time is negative. -/
theorem reset_defined_iff (calls : List Call) (t : IntervalTimer)
    (h : operated.runFrom new calls = some t) :
    ((∃ t', t.reset = .ok t') ↔ (t.interval ≤ t.current → t.interval ≠ 0)) ∧
    ((t.interval ≤ t.current → t.interval ≠ 0) ↔ lastInterval calls ≠ 0 ∨ t.current < 0) := by
  refine ⟨reset_isOk_iff, ?_⟩
  have hlast : lastInterval calls = t.interval := (interval_eq_lastInterval h).symm
  rw [hlast]
  constructor
  · intro hne
    by_cases hzero : t.interval = 0
    · rw [hzero] at hne
      exact .inr (Int64.not_le.mp fun hle => hne hle rfl)
    · exact .inl hzero
  · rintro (hne | hneg) hle
    · exact hne
    · intro hzero
      rw [hzero] at hle
      exact absurd hneg (Int64.not_lt.mpr hle)

theorem reset_defined_iff_set :
    ((∃ t', (IntervalTimer.mk 5 7).reset = .ok t') ↔ ((5 : Int64) ≤ 7 → (5 : Int64) ≠ 0)) ∧
    (((5 : Int64) ≤ 7 → (5 : Int64) ≠ 0) ↔
      lastInterval [.setInterval 5, .update 7] ≠ 0 ∨ (7 : Int64) < 0) :=
  reset_defined_iff [.setInterval 5, .update 7] ⟨5, 7⟩ (by decide +kernel)

/-- A timer that has just been made divides by its interval. -/
theorem reset_divides_by_zero : new.reset = .error .undefined ∧
    ¬∀ t, operated.Reachable t → t.interval ≤ t.current → t.interval ≠ 0 :=
  ⟨rfl, fun h => h new operated.reachable_start (Int64.le_refl 0) rfl⟩

end IntervalTimer
end Warhead
