import Mathlib

/-! Readings of a clock in milliseconds, cut to 32 bits, and a timer that is told how much time
has passed and reports every period. -/

namespace Warhead

/-! ## Readings -/

def getMSTime (sinceStart : Nat) : UInt32 := UInt32.ofNat sinceStart

def getMSTimeDiff (oldMSTime newMSTime : UInt32) : UInt32 :=
  if oldMSTime > newMSTime then (0xFFFFFFFF - oldMSTime) + newMSTime else newMSTime - oldMSTime

def getMSTimeDiffToNow (oldMSTime : UInt32) (sinceStart : Nat) : UInt32 :=
  getMSTimeDiff oldMSTime (getMSTime sinceStart)

def summedDiffs : Nat → List Nat → Nat
  | _, [] => 0
  | t, e :: es => (getMSTimeDiffToNow (getMSTime t) (t + e)).toNat + summedDiffs (t + e) es

theorem getMSTimeDiff_wrap (t e : Nat) (he : e < 2 ^ 32) :
    (getMSTimeDiffToNow (getMSTime t) (t + e)).toNat + ((t + e) / 2 ^ 32 - t / 2 ^ 32) = e := by
  have hold : (getMSTime t).toNat = t % 2 ^ 32 := UInt32.toNat_ofNat'
  have hnew : (getMSTime (t + e)).toNat = (t + e) % 2 ^ 32 := UInt32.toNat_ofNat'
  unfold getMSTimeDiffToNow getMSTimeDiff
  split_ifs with h
  · rw [gt_iff_lt, UInt32.lt_iff_toNat_lt, hold, hnew] at h
    rw [UInt32.toNat_add, UInt32.toNat_sub, hold, hnew]
    have hmax : (0xFFFFFFFF : UInt32).toNat = 2 ^ 32 - 1 := rfl
    rw [hmax]
    omega
  · rw [gt_iff_lt, UInt32.lt_iff_toNat_lt, hold, hnew] at h
    rw [UInt32.toNat_sub, hold, hnew]
    omega

theorem summedDiffs_wraps (t : Nat) (es : List Nat) (hes : ∀ e ∈ es, e < 2 ^ 32) :
    summedDiffs t es + ((t + es.sum) / 2 ^ 32 - t / 2 ^ 32) = es.sum := by
  induction es generalizing t with
  | nil => simp [summedDiffs]
  | cons e es ih =>
    obtain ⟨he, hes⟩ := List.forall_mem_cons.mp hes
    have hone := getMSTimeDiff_wrap t e he
    have hrest := ih (t + e) hes
    have hfirst : t / 2 ^ 32 ≤ (t + e) / 2 ^ 32 := Nat.div_le_div_right (Nat.le_add_right ..)
    have hlast : (t + e) / 2 ^ 32 ≤ (t + e + es.sum) / 2 ^ 32 :=
      Nat.div_le_div_right (Nat.le_add_right ..)
    rw [summedDiffs, List.sum_cons, ← Nat.add_assoc]
    omega

/-- Each difference, and the sum of those between successive readings, is the time that has passed
if and only if the counter has not gone round. -/
theorem getMSTimeDiff_iff (t : Nat) (es : List Nat) (hes : ∀ e ∈ es, e < 2 ^ 32) :
    (∀ e ∈ es, (getMSTimeDiff (getMSTime t) (getMSTime (t + e))).toNat = e ↔
      t % 2 ^ 32 + e < 2 ^ 32) ∧
    (summedDiffs t es = es.sum ↔ t % 2 ^ 32 + es.sum < 2 ^ 32) := by
  constructor
  · intro e he
    have hwrap := getMSTimeDiff_wrap t e (hes e he)
    unfold getMSTimeDiffToNow at hwrap
    omega
  · have hwraps := summedDiffs_wraps t es hes
    omega

theorem getMSTimeDiff_iff_minute :
    (∀ e ∈ [40000, 20000], (getMSTimeDiff (getMSTime 4294967000) (getMSTime (4294967000 + e))).toNat = e ↔
      4294967000 % 2 ^ 32 + e < 2 ^ 32) ∧
    (summedDiffs 4294967000 [40000, 20000] = [40000, 20000].sum ↔
      4294967000 % 2 ^ 32 + [40000, 20000].sum < 2 ^ 32) :=
  getMSTimeDiff_iff 4294967000 [40000, 20000] (by decide)

/-- One tick over the end of the counter. -/
theorem getMSTimeDiff_tick : getMSTimeDiff (getMSTime (2 ^ 32 - 1)) (getMSTime (2 ^ 32)) = 0 ∧
    ¬∀ t e, e < 2 ^ 32 → (getMSTimeDiff (getMSTime t) (getMSTime (t + e))).toNat = e := by
  refine ⟨by decide, fun h => ?_⟩
  exact absurd (h (2 ^ 32 - 1) 1 (by decide)) (by decide)

/-! ## The periodic timer -/

structure PeriodicTimer where
  i_period : Int32
  i_expireTime : Int32

namespace PeriodicTimer

/-- `i_expireTime -= diff`, in unsigned arithmetic. -/
def elapse (t : PeriodicTimer) (diff : UInt32) : PeriodicTimer :=
  { t with i_expireTime := (t.i_expireTime.toUInt32 - diff).toInt32 }

/-- `i_expireTime += i_period > int32(diff) ? i_period : diff`, in unsigned arithmetic too. -/
def restart (t : PeriodicTimer) (diff : UInt32) : PeriodicTimer :=
  { t with i_expireTime := (t.i_expireTime.toUInt32 +
      if t.i_period > diff.toInt32 then t.i_period.toUInt32 else diff).toInt32 }

def update (t : PeriodicTimer) (diff : UInt32) : Bool × PeriodicTimer :=
  let t := t.elapse diff
  if t.i_expireTime > 0 then (false, t) else (true, t.restart diff)

def updates (t : PeriodicTimer) (diffs : List UInt32) : PeriodicTimer :=
  diffs.foldl (fun t diff => (t.update diff).2) t

def remaining (t : PeriodicTimer) : Int := t.i_expireTime.toInt

def total (diffs : List UInt32) : Int := (diffs.map fun diff => (diff.toNat : Int)).sum

def deadlines : PeriodicTimer → Int → List UInt32 → List Int
  | _, _, [] => []
  | t, sum, diff :: diffs =>
    let rest := deadlines (t.update diff).2 (sum + diff.toNat) diffs
    if (t.update diff).1 then (sum + t.remaining) :: rest else rest

variable {t : PeriodicTimer} {diff : UInt32} {upper : Int}

theorem toInt_toInt32 (hdiff : diff.toNat < 2 ^ 31) : diff.toInt32.toInt = diff.toNat :=
  BitVec.toInt_eq_toNat_of_lt (x := diff.toBitVec) (by
    change 2 * diff.toNat < 2 ^ 32
    omega)

theorem remaining_elapse (hdiff : diff.toNat < 2 ^ 31) (hpos : 0 ≤ t.remaining) :
    (t.elapse diff).remaining = t.remaining - diff.toNat := by
  have hlt : t.remaining < 2 ^ 31 := t.i_expireTime.toInt_lt
  unfold remaining elapse at *
  rw [UInt32.toInt32_sub, Int32.toInt32_toUInt32, Int32.toInt_sub, toInt_toInt32 hdiff]
  apply Int.bmod_eq_of_le <;> omega

theorem remaining_restart (hdiff : diff.toNat < 2 ^ 31) (hnonpos : t.remaining ≤ 0) :
    (t.restart diff).remaining = t.remaining + max t.i_period.toInt diff.toNat := by
  have hle : -2 ^ 31 ≤ t.remaining := t.i_expireTime.le_toInt
  have hperiod : t.i_period.toInt < 2 ^ 31 := t.i_period.toInt_lt
  have hmax : (if t.i_period > diff.toInt32 then t.i_period.toUInt32 else diff).toInt32.toInt =
      max t.i_period.toInt diff.toNat := by
    have hdiff' := toInt_toInt32 hdiff
    split_ifs with h
    · rw [gt_iff_lt, Int32.lt_iff_toInt_lt] at h
      rw [Int32.toInt32_toUInt32]
      omega
    · rw [gt_iff_lt, Int32.lt_iff_toInt_lt] at h
      omega
  unfold remaining restart at *
  rw [UInt32.toInt32_add, Int32.toInt32_toUInt32, Int32.toInt_add, hmax]
  apply Int.bmod_eq_of_le <;> omega

theorem update_early (hdiff : diff.toNat < 2 ^ 31) (hpos : 0 ≤ t.remaining)
    (h : diff.toNat < t.remaining) : t.update diff = (false, t.elapse diff) := by
  have helapse := remaining_elapse hdiff hpos
  apply if_pos
  rw [gt_iff_lt, Int32.lt_iff_toInt_lt]
  change 0 < (t.elapse diff).remaining
  omega

theorem update_due (hdiff : diff.toNat < 2 ^ 31) (hpos : 0 ≤ t.remaining)
    (h : t.remaining ≤ diff.toNat) : t.update diff = (true, (t.elapse diff).restart diff) := by
  have helapse := remaining_elapse hdiff hpos
  apply if_neg
  rw [gt_iff_lt, Int32.lt_iff_toInt_lt]
  change ¬0 < (t.elapse diff).remaining
  omega

theorem update_cases (hdiff : diff.toNat < 2 ^ 31) (hpos : 0 ≤ t.remaining) :
    (t.update diff).2.i_period = t.i_period ∧
    ((t.update diff).1 = false ∧ diff.toNat < t.remaining ∧
        (t.update diff).2.remaining = t.remaining - diff.toNat ∨
      (t.update diff).1 = true ∧ t.remaining ≤ diff.toNat ∧
        (t.update diff).2.remaining = t.remaining - diff.toNat + max t.i_period.toInt diff.toNat) := by
  have helapse := remaining_elapse hdiff hpos
  rcases lt_or_ge (diff.toNat : Int) t.remaining with hearly | hdue
  · rw [update_early hdiff hpos hearly]
    exact ⟨rfl, .inl ⟨rfl, hearly, helapse⟩⟩
  · rw [update_due hdiff hpos hdue]
    refine ⟨rfl, .inr ⟨rfl, hdue, ?_⟩⟩
    rw [← helapse]
    exact remaining_restart hdiff (by omega)

structure Ahead (period : Int32) (upper : Int) (t : PeriodicTimer) : Prop where
  i_period : t.i_period = period
  pos : 1 ≤ t.remaining
  le : t.remaining ≤ upper

variable {period : Int32} {diffs : List UInt32}

theorem Ahead.update (h : t.Ahead period upper) (hupper : period.toInt ≤ upper)
    (hdiff : diff.toNat < 2 ^ 31) :
    (t.update diff).2.Ahead period upper := by
  have hpos := h.pos
  have hle := h.le
  obtain ⟨hsame, hstep⟩ := t.update_cases hdiff (by omega)
  rw [h.i_period] at hsame hstep
  refine ⟨hsame, ?_, ?_⟩ <;> omega

theorem Ahead.updates (h : t.Ahead period upper) (hupper : period.toInt ≤ upper)
    (hdiffs : ∀ diff ∈ diffs, diff.toNat < 2 ^ 31) :
    (t.updates diffs).Ahead period upper := by
  induction diffs generalizing t with
  | nil => exact h
  | cons diff diffs ih =>
    obtain ⟨hdiff, hdiffs⟩ := List.forall_mem_cons.mp hdiffs
    exact ih (h.update hupper hdiff) hdiffs

theorem total_cons : total (diff :: diffs) = diff.toNat + total diffs := List.sum_cons

theorem total_nonneg (diffs : List UInt32) : 0 ≤ total diffs := by
  induction diffs with
  | nil => exact le_rfl
  | cons diff diffs ih =>
    rw [total_cons]
    omega

theorem Ahead.deadlines (h : t.Ahead period upper) (hperiod : 0 < period.toInt)
    (hupper : period.toInt ≤ upper) (hdiffs : ∀ diff ∈ diffs, diff.toNat ≤ period.toInt) (sum : Int) :
    ∃ n, t.deadlines sum diffs =
        (List.range n).map (fun k : Nat => sum + t.remaining + k * period.toInt) ∧
      ∀ k : Nat, k < n ↔ sum + t.remaining + k * period.toInt ≤ sum + total diffs := by
  have hpos := h.pos
  induction diffs generalizing t sum with
  | nil =>
    refine ⟨0, rfl, fun k => ?_⟩
    have hk : 0 ≤ (k : Int) * period.toInt := Int.mul_nonneg (Int.natCast_nonneg k) hperiod.le
    change _ ↔ _ ≤ sum + 0
    omega
  | cons diff diffs ih =>
    obtain ⟨hsmall, hdiffs⟩ := List.forall_mem_cons.mp hdiffs
    have hlt : period.toInt < 2 ^ 31 := period.toInt_lt
    have hdiff : diff.toNat < 2 ^ 31 := by omega
    have hnext := h.update hupper hdiff
    obtain ⟨n, hn, hreached⟩ := ih hnext hdiffs (sum + diff.toNat) hnext.pos
    obtain ⟨-, ⟨hpassed, hearly, hrest⟩ | ⟨hpassed, hdue, hrest⟩⟩ :=
      t.update_cases hdiff (by omega)
    · -- the deadline is still the same
      have hsame : sum + diff.toNat + (t.update diff).2.remaining = sum + t.remaining := by omega
      rw [hsame, Int.add_assoc, ← total_cons] at hreached
      refine ⟨n, ?_, hreached⟩
      rw [PeriodicTimer.deadlines, hpassed, hn, hsame]
      rfl
    · rw [h.i_period, max_eq_left hsmall] at hrest
      have hput : sum + diff.toNat + (t.update diff).2.remaining =
          sum + t.remaining + period.toInt := by omega
      rw [hput, Int.add_assoc sum diff.toNat, ← total_cons] at hreached
      have hshift : ∀ k : Nat, sum + t.remaining + period.toInt + k * period.toInt =
          sum + t.remaining + (k + 1 : Nat) * period.toInt := by
        intro k
        push_cast
        ring
      refine ⟨n + 1, ?_, fun k => ?_⟩
      · rw [PeriodicTimer.deadlines, hpassed, hn, hput, List.range_succ_eq_map]
        simp [hshift, Function.comp_def]
      · cases k with
        | zero =>
          have hrest := total_nonneg diffs
          rw [total_cons]
          omega
        | succ k =>
          rw [← hshift, ← hreached]
          omega

def after (period start : Int32) (diffs : List UInt32) : PeriodicTimer :=
  (PeriodicTimer.mk period start).updates diffs

def Exact (t : PeriodicTimer) (diff : UInt32) : Prop :=
  (t.elapse diff).remaining = t.remaining - diff.toNat ∧
  ((t.update diff).1 = true → (t.update diff).2.remaining =
    (t.elapse diff).remaining + max t.i_period.toInt diff.toNat)

theorem Ahead.exact (h : t.Ahead period upper) (hdiff : diff.toNat < 2 ^ 31) : t.Exact diff := by
  have hpos := h.pos
  have helapse := remaining_elapse (t := t) hdiff (by omega)
  refine ⟨helapse, fun hpassed => ?_⟩
  obtain ⟨-, ⟨hearly, -⟩ | ⟨-, -, hrest⟩⟩ := t.update_cases hdiff (by omega)
  · rw [hpassed] at hearly
    cases hearly
  · rw [hrest, helapse]

theorem Ahead.passed_iff (h : t.Ahead period upper) (hdiff : diff.toNat < 2 ^ 31) :
    (t.update diff).1 = true ↔ t.remaining ≤ diff.toNat := by
  have hpos := h.pos
  obtain ⟨-, ⟨hpassed, hearly, -⟩ | ⟨hpassed, hdue, -⟩⟩ := t.update_cases hdiff (by omega)
  · simpa [hpassed] using hearly
  · simpa [hpassed] using hdue

/-- No update overflows, one passes when the deadline is reached, the next deadline is ahead, and
as long as the steps are small the deadlines are those that were planned. -/
theorem keeps_phase (period start : Int32) (hperiod : 0 < period) (hstart : 1 ≤ start)
    (diffs : List UInt32) (hdiffs : ∀ diff ∈ diffs, diff.toNat < 2 ^ 31)
    (diff : UInt32) (hdiff : diff.toNat < 2 ^ 31) :
    (after period start diffs).Exact diff ∧
    (((after period start diffs).update diff).1 = true ↔
      (after period start diffs).remaining ≤ diff.toNat) ∧
    1 ≤ (after period start diffs).remaining ∧
    (after period start diffs).remaining ≤ max start.toInt period.toInt ∧
    ((∀ diff ∈ diffs, diff.toNat ≤ period.toInt) →
      ∃ n, (PeriodicTimer.mk period start).deadlines 0 diffs =
          (List.range n).map (fun k : Nat => start.toInt + k * period.toInt) ∧
        ∀ k : Nat, k < n ↔ start.toInt + k * period.toInt ≤ total diffs) := by
  rw [Int32.lt_iff_toInt_lt] at hperiod
  rw [Int32.le_iff_toInt_le] at hstart
  have hupper : period.toInt ≤ max start.toInt period.toInt := le_max_right _ _
  have hnew : (PeriodicTimer.mk period start).Ahead period (max start.toInt period.toInt) :=
    ⟨rfl, hstart, le_max_left _ _⟩
  have h := hnew.updates hupper hdiffs
  refine ⟨h.exact hdiff, h.passed_iff hdiff, h.pos, h.le, fun hsmall => ?_⟩
  obtain ⟨n, hn, hreached⟩ := hnew.deadlines hperiod hupper hsmall 0
  simp only [Int.zero_add] at hn hreached
  exact ⟨n, hn, hreached⟩

theorem keeps_phase_thrice :
    1 ≤ (after 10 3 [4, 9, 7]).remaining ∧
    ∃ n, (PeriodicTimer.mk 10 3).deadlines 0 [4, 9, 7] =
        (List.range n).map (fun k : Nat => (3 : Int32).toInt + k * (10 : Int32).toInt) ∧
      ∀ k : Nat, k < n ↔ (3 : Int32).toInt + k * (10 : Int32).toInt ≤ total [4, 9, 7] := by
  have h := keeps_phase 10 3 (by decide) (by decide) [4, 9, 7] (by simp) 10 (by decide)
  exact ⟨h.2.2.1, h.2.2.2.2 (by simp)⟩

end PeriodicTimer

end Warhead
