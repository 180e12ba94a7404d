import WarheadFix.Common.StringConvert
import WarheadFix.Common.Tokenize
import WarheadFix.Common.Config
import WarheadFix.Lib.Places

/-! Durations as texts: with the names of the units, or with colons between the counts. At most
three counts are written, and none that is zero. -/

namespace Warhead.Time
open Lib StringConvert

inductive TimeFormat where
  | fullText
  | shortText
  | numeric

namespace TimeDiff

def MILLISECONDS : UInt64 := 1000

def SECONDS : UInt64 := 1000 * MILLISECONDS

def MINUTES : UInt64 := 60 * SECONDS

def HOURS : UInt64 := 60 * MINUTES

def DAYS : UInt64 := 24 * HOURS

end TimeDiff

structure Out where
  out : Bytes
  count : Nat
  isFirst : Bool

namespace Out

def empty : Out := ⟨[], 0, false⟩

def padded (n : Nat) : Bytes := List.replicate (2 - (digits n).length) 48 ++ digits n

def addOutNumerlic (s : Out) (time : UInt64) : Out :=
  if 3 ≤ s.count then s
  else if !s.isFirst then
    ⟨s.out ++ (digits time.toNat ++ ascii ":"), s.count + 1, true⟩
  else { s with out := s.out ++ (padded time.toNat ++ ascii ":"), count := s.count + 1 }

structure Names where
  shortText : Bytes
  fullText1 : Bytes
  fullText : Bytes

def toValue (n : UInt32) : Integral.uint32.Value :=
  ⟨n.toNat, Int.natCast_nonneg _, Int.ofNat_lt.mpr n.toNat_lt⟩

def addOut (timeFormat : TimeFormat) (s : Out) (timeCount : UInt32) (names : Names) :
    Outcome Empty Out :=
  if 3 ≤ s.count then return s
  else do
    let number ← toString (toValue timeCount)
    let name := match timeFormat with
      | .shortText => names.shortText
      | .fullText => if timeCount = 1 then names.fullText1 else names.fullText
      | .numeric => ascii "<Unknown time format>"
    return { s with out := s.out ++ (number ++ name), count := s.count + 1 }

end Out

open TimeDiff Out in
def toTimeString (durationTime : Int64) (timeFormat : TimeFormat) : Outcome Empty Bytes :=
  let microsecs := (durationTime % 1000).toUInt64
  let millisecs := durationTime.toUInt64 / MILLISECONDS % 1000
  let secs := durationTime.toUInt64 / SECONDS % 60
  let minutes := durationTime.toUInt64 / MINUTES % 60
  let hours := durationTime.toUInt64 / HOURS % 24
  let days := durationTime.toUInt64 / DAYS
  match timeFormat with
  | .numeric =>
    let s := [days, hours, minutes, secs, millisecs, microsecs].foldl
      (fun s time => if time ≠ 0 then s.addOutNumerlic time else s) empty
    -- the last colon is deleted
    return s.out.dropLast
  | _ => do
    let s ← [(days, Names.mk (ascii "d ") (ascii " Day ") (ascii " Days ")),
        (hours, ⟨ascii "h ", ascii " Hour ", ascii " Hours "⟩),
        (minutes, ⟨ascii "m ", ascii " Minute ", ascii " Minutes "⟩),
        (secs, ⟨ascii "s ", ascii " Second ", ascii " Seconds "⟩),
        (millisecs, ⟨ascii "ms ", ascii " Millisecond ", ascii " Milliseconds "⟩),
        (microsecs, ⟨ascii "us ", ascii " Microsecond ", ascii " Microseconds "⟩)].foldlM
      (fun s (time, names) => if time ≠ 0 then s.addOut timeFormat time.toUInt32 names else pure s)
      empty
    -- what `TrimRightInPlace` leaves of a text, by `StringFormat.trimRightInPlace_eq`
    return s.out.rdropWhile Config.isSpace

/-! ## The units -/

inductive TimeUnit where
  | days
  | hours
  | minutes
  | seconds
  | milliseconds
  | microseconds
  deriving DecidableEq

namespace TimeUnit

def all : List TimeUnit := [days, hours, minutes, seconds, milliseconds, microseconds]

def size : TimeUnit → Nat
  | days => 86400000000
  | hours => 3600000000
  | minutes => 60000000
  | seconds => 1000000
  | milliseconds => 1000
  | microseconds => 1

def ratio : TimeUnit → Option Nat
  | days => none
  | hours => some 24
  | minutes | seconds => some 60
  | milliseconds | microseconds => some 1000

def short : TimeUnit → Bytes
  | days => ascii "d"
  | hours => ascii "h"
  | minutes => ascii "m"
  | seconds => ascii "s"
  | milliseconds => ascii "ms"
  | microseconds => ascii "us"

def one : TimeUnit → Bytes
  | days => ascii "Day"
  | hours => ascii "Hour"
  | minutes => ascii "Minute"
  | seconds => ascii "Second"
  | milliseconds => ascii "Millisecond"
  | microseconds => ascii "Microsecond"

def many (u : TimeUnit) : Bytes := u.one ++ ascii "s"

def names (u : TimeUnit) : Out.Names :=
  ⟨u.short ++ ascii " ", ascii " " ++ u.one ++ ascii " ", ascii " " ++ u.many ++ ascii " "⟩

end TimeUnit

open Places

def unitTimes (d : Int64) : List (UInt64 × TimeUnit) :=
  [(d.toUInt64 / TimeDiff.DAYS, .days), (d.toUInt64 / TimeDiff.HOURS % 24, .hours),
    (d.toUInt64 / TimeDiff.MINUTES % 60, .minutes), (d.toUInt64 / TimeDiff.SECONDS % 60, .seconds),
    (d.toUInt64 / TimeDiff.MILLISECONDS % 1000, .milliseconds),
    ((d % 1000).toUInt64, .microseconds)]

def unitCounts (d : Int64) : List (Nat × TimeUnit) :=
  counts TimeUnit.size TimeUnit.all d.toNatClampNeg

def shown (d : Int64) : List (Nat × TimeUnit) := (nonZero (unitCounts d)).take 3

def textStep (timeFormat : TimeFormat) (s : Out) (c : UInt64 × TimeUnit) : Outcome Empty Out :=
  if c.1 ≠ 0 then s.addOut timeFormat c.1.toUInt32 c.2.names else pure s

theorem toTimeString_text {timeFormat : TimeFormat} (h : timeFormat ≠ .numeric) (d : Int64) :
    toTimeString d timeFormat = (do
      let s ← (unitTimes d).foldlM (textStep timeFormat) Out.empty
      return s.out.rdropWhile Config.isSpace) := by
  cases timeFormat with
  | numeric => exact absurd rfl h
  | fullText => rfl
  | shortText => rfl

theorem unitTimes_toNat {d : Int64} (hd : 0 ≤ d) :
    (unitTimes d).map (fun c => (c.1.toNat, c.2)) = unitCounts d := by
  have hwhole : d.toUInt64.toNat = d.toNatClampNeg := Int64.toNat_toUInt64_of_le hd
  have hpart : (d % 1000).toUInt64.toNat = d.toNatClampNeg % 1000 := by
    have hcast := Int64.cast_toNatClampNeg d hd
    have hmod : (d % 1000).toInt = ((d.toNatClampNeg % 1000 : Nat) : Int) := by
      rw [Int64.toInt_mod, ← hcast]
      exact Int.ofNat_tmod _ _
    have hle : 0 ≤ d % 1000 := by
      rw [Int64.le_iff_toInt_le, hmod]
      exact Int.natCast_nonneg _
    rw [Int64.toNat_toUInt64_of_le hle, ← Int64.toNat_toInt, hmod, Int.toNat_natCast]
  have hdays : TimeDiff.DAYS.toNat = 86400000000 := rfl
  have hhours : TimeDiff.HOURS.toNat = 3600000000 := rfl
  have hminutes : TimeDiff.MINUTES.toNat = 60000000 := rfl
  have hseconds : TimeDiff.SECONDS.toNat = 1000000 := rfl
  have hmillis : TimeDiff.MILLISECONDS.toNat = 1000 := rfl
  simp only [unitTimes, unitCounts, TimeUnit.all, counts, TimeUnit.size, List.map_cons, List.map_nil,
    UInt64.toNat_div, UInt64.toNat_mod, hwhole, hpart, hdays, hhours, hminutes, hseconds, hmillis]
  simp only [UInt64.reduceToNat, List.cons.injEq, Prod.mk.injEq, and_true, true_and]
  refine ⟨?_, ?_, ?_, ?_, ?_⟩ <;> omega

theorem shown_eq {d : Int64} (hd : 0 ≤ d) :
    (((unitTimes d).filter fun c => c.1 ≠ 0).take 3).map (fun c => (c.1.toNat, c.2)) = shown d := by
  rw [shown, ← unitTimes_toNat hd, nonZero, List.filter_map, List.map_take]
  congr 3
  funext c
  simp [← UInt64.toNat_inj]

theorem unitCounts_lt {d : Int64} {c : Nat × TimeUnit} (hc : c ∈ unitCounts d) :
    c.1 < 2 ^ 32 ∧ ∀ r ∈ c.2.ratio, c.1 < r := by
  have hlt := d.toNatClampNeg_lt
  simp only [unitCounts, TimeUnit.all, counts, TimeUnit.size, List.mem_cons, List.not_mem_nil,
    or_false] at hc
  obtain rfl | rfl | rfl | rfl | rfl | rfl := hc <;>
    simp only [TimeUnit.ratio, Option.mem_def, Option.some.injEq, forall_eq', reduceCtorEq,
      false_implies, implies_true, and_true] <;>
    omega

theorem mem_shown {d : Int64} {c : Nat × TimeUnit} (hc : c ∈ shown d) :
    c ∈ unitCounts d ∧ c.1 ≠ 0 := by
  have hmem := List.mem_filter.mp (List.mem_of_mem_take hc)
  exact ⟨hmem.1, of_decide_eq_true hmem.2⟩

/-! ## Words and what stands between them -/

theorem intercalate_concat (sep : UInt8) (ws : List Bytes) (w : Bytes) :
    [sep].intercalate (ws ++ [w]) = ws.flatMap (· ++ [sep]) ++ w := by
  induction ws with
  | nil => exact List.intercalate_singleton
  | cons v ws ih =>
    rw [List.cons_append, List.intercalate_cons_of_ne_nil (by simp), ih, List.flatMap_cons,
      List.append_assoc, List.append_assoc, List.append_assoc]

theorem trim_words {ws : List Bytes} (h : ∀ w ∈ ws, w ≠ [] ∧ ∀ c ∈ w, Config.isSpace c = false) :
    (ws.flatMap (· ++ [32])).rdropWhile Config.isSpace = [32].intercalate ws := by
  rcases List.eq_nil_or_concat' ws with rfl | ⟨ws, w, rfl⟩
  · rfl
  · obtain ⟨hne, hw⟩ := h w (by simp)
    obtain ⟨w, c, rfl⟩ := (List.eq_nil_or_concat' w).resolve_left hne
    have hc : ¬Config.isSpace c = true := Bool.eq_false_iff.mp (hw c (by simp))
    have hblank : Config.isSpace 32 = true := rfl
    rw [intercalate_concat, List.flatMap_append, List.flatMap_singleton, ← List.append_assoc,
      List.rdropWhile_concat_pos _ _ _ hblank, ← List.append_assoc,
      List.rdropWhile_concat_neg _ _ _ hc]

/-! ## With names -/

def nameOf (c : Nat × TimeUnit) : Bytes := if c.1 = 1 then c.2.one else c.2.many

def wordsOf (timeFormat : TimeFormat) (c : Nat × TimeUnit) : List Bytes :=
  match timeFormat with
  | .shortText => [digits c.1 ++ c.2.short]
  | _ => [digits c.1, nameOf c]

def addWords (timeFormat : TimeFormat) (s : Out) (c : UInt64 × TimeUnit) : Out :=
  { s with
    out := s.out ++ (wordsOf timeFormat (c.1.toUInt32.toNat, c.2)).flatMap (· ++ [32])
    count := s.count + 1 }

theorem toString_toValue (n : UInt32)  :
    StringConvert.toString (Out.toValue n) = .ok (digits n.toNat) := by
  rw [toString_eq]
  rfl

theorem addOut_eq {timeFormat : TimeFormat} (h : timeFormat ≠ .numeric) (s : Out) (n : UInt32)
    (u : TimeUnit) : s.addOut timeFormat n u.names = .ok (if 3 ≤ s.count then s else
      { s with
        out := s.out ++ (wordsOf timeFormat (n.toNat, u)).flatMap (· ++ [32])
        count := s.count + 1 }) := by
  have hblank : ascii " " = [32] := rfl
  have hone : n.toNat = 1 ↔ n = 1 := UInt32.toNat_inj (b := 1)
  unfold Out.addOut
  by_cases hcount : 3 ≤ s.count
  · rw [if_pos hcount, if_pos hcount]
    rfl
  · rw [if_neg hcount, if_neg hcount, bind_of_ok (toString_toValue n)]
    cases timeFormat with
    | numeric => exact absurd rfl h
    | shortText => simp [wordsOf, TimeUnit.names, hblank]; rfl
    | fullText =>
      simp only [wordsOf, nameOf, TimeUnit.names, hone]
      split_ifs <;> simp [hblank] <;> rfl

theorem textStep_eq {timeFormat : TimeFormat} (h : timeFormat ≠ .numeric) (s : Out)
    (c : UInt64 × TimeUnit) : textStep timeFormat s c =
      .ok (if c.1 ≠ 0 then if 3 ≤ s.count then s else addWords timeFormat s c else s) := by
  unfold textStep
  split_ifs with hzero hcount
  · rw [addOut_eq h, if_pos hcount]
  · rw [addOut_eq h, if_neg hcount]
    rfl
  · rfl

theorem foldl_addWords (timeFormat : TimeFormat) (cs : List (UInt64 × TimeUnit)) (s : Out) :
    (cs.foldl (addWords timeFormat) s).out = s.out ++
      ((cs.map fun c => (c.1.toUInt32.toNat, c.2)).flatMap (wordsOf timeFormat)).flatMap
        (· ++ [32]) := by
  induction cs generalizing s with
  | nil => exact (List.append_nil _).symm
  | cons c cs ih =>
    rw [List.foldl_cons, ih, List.map_cons, List.flatMap_cons, List.flatMap_append,
      ← List.append_assoc]
    rfl

theorem shown_toUInt32 {d : Int64} (hd : 0 ≤ d) :
    (((unitTimes d).filter fun c => c.1 ≠ 0).take 3).map (fun c => (c.1.toUInt32.toNat, c.2)) =
      shown d := by
  rw [← shown_eq hd]
  refine List.map_congr_left fun c hc => ?_
  have hmem : (c.1.toNat, c.2) ∈ unitCounts d := by
    rw [← unitTimes_toNat hd]
    exact List.mem_map_of_mem (List.mem_filter.mp (List.mem_of_mem_take hc)).1
  rw [UInt64.toNat_toUInt32, Nat.mod_eq_of_lt (unitCounts_lt hmem).1]

theorem isSpace_eq_false_of_mem_digits {n : Nat} {c : UInt8} (hc : c ∈ digits n) :
    Config.isSpace c = false := by
  obtain ⟨hlow, -⟩ := isDigits_digits n c hc
  rw [UInt8.le_iff_toNat_le] at hlow
  have hblank : c ≠ 32 := fun h => absurd hlow (by rw [h]; decide)
  have hlarge : ¬c ≤ 13 := fun h => by
    rw [UInt8.le_iff_toNat_le] at h
    exact absurd (hlow.trans h) (by decide)
  simp [Config.isSpace, hblank, hlarge]

theorem names_not_blank (u : TimeUnit) :
    ∀ w ∈ [u.short, u.one, u.many], w ≠ [] ∧ ∀ c ∈ w, Config.isSpace c = false := by
  cases u <;> simp [TimeUnit.short, TimeUnit.one, TimeUnit.many, ascii] <;> decide

theorem words_not_blank (timeFormat : TimeFormat) (cs : List (Nat × TimeUnit)) :
    ∀ w ∈ cs.flatMap (wordsOf timeFormat), w ≠ [] ∧ ∀ c ∈ w, Config.isSpace c = false := by
  intro w hw
  obtain ⟨⟨n, u⟩, -, hw⟩ := List.mem_flatMap.mp hw
  have hnumber : digits n ≠ [] ∧ ∀ c ∈ digits n, Config.isSpace c = false :=
    ⟨digits_ne_nil n, fun _ => isSpace_eq_false_of_mem_digits⟩
  have hname : nameOf (n, u) ∈ [u.short, u.one, u.many] := by
    unfold nameOf
    split_ifs <;> simp
  cases timeFormat with
  | shortText =>
    rw [List.mem_singleton.mp hw]
    exact ⟨List.append_ne_nil_of_left_ne_nil hnumber.1 _,
      List.forall_mem_append.mpr ⟨hnumber.2, (names_not_blank u _ List.mem_cons_self).2⟩⟩
  | fullText | numeric =>
    rcases List.mem_pair.mp hw with rfl | rfl
    · exact hnumber
    · exact names_not_blank u _ hname

theorem toTimeString_words {timeFormat : TimeFormat} (h : timeFormat ≠ .numeric) {d : Int64}
    (hd : 0 ≤ d) : toTimeString d timeFormat =
      .ok ([32].intercalate ((shown d).flatMap (wordsOf timeFormat))) := by
  have hloop : (unitTimes d).foldlM (textStep timeFormat) Out.empty =
      .ok ((((unitTimes d).filter fun c => c.1 ≠ 0).take 3).foldl (addWords timeFormat) Out.empty) := by
    rw [funext fun s => funext fun c => textStep_eq h s c]
    have hadd : ∀ s c, Out.count (addWords timeFormat s c) = Out.count s + 1 := fun _ _ => rfl
    exact List.foldlM_pure.trans
      (congrArg Except.ok (foldl_take_filter hadd 3 (unitTimes d) Out.empty))
  rw [toTimeString_text h, bind_of_ok hloop, foldl_addWords, shown_toUInt32 hd]
  exact congrArg Except.ok (trim_words (words_not_blank timeFormat (shown d)))

def readShort (word : Bytes) : Option (Nat × TimeUnit) :=
  (TimeUnit.all.find? fun u => u.short = word.dropWhile Fmt.isDigit).map
    fun u => (decimal (word.takeWhile Fmt.isDigit), u)

def readFull : List Bytes → Option (List (Nat × TimeUnit))
  | number :: name :: words => do
    let u ← TimeUnit.all.find? fun u => nameOf (decimal number, u) = name
    return (decimal number, u) :: (← readFull words)
  | [] => some []
  | [_] => none

def listed (timeFormat : TimeFormat) (text : Bytes) : Option (List (Nat × TimeUnit)) :=
  match Tokenize.tokenize text 32 false with
  | .error _ => none
  | .ok words =>
    match timeFormat with
    | .shortText => words.mapM readShort
    | _ => readFull words

theorem readShort_word (n : Nat) (u : TimeUnit) : readShort (digits n ++ u.short) = some (n, u) := by
  have hdigits : ∀ c ∈ digits n, Fmt.isDigit c = true := fun c hc => by
    obtain ⟨hlow, hhigh⟩ := isDigits_digits n c hc
    simp [Fmt.isDigit, hlow, hhigh]
  have htake : u.short.takeWhile Fmt.isDigit = [] := by cases u <;> rfl
  have hdrop : u.short.dropWhile Fmt.isDigit = u.short := by cases u <;> rfl
  have hfind : TimeUnit.all.find? (fun v => v.short = u.short) = some u := by
    cases u <;> simp [TimeUnit.all, TimeUnit.short, ascii] <;> decide
  rw [readShort, List.takeWhile_append_of_pos hdigits, List.dropWhile_append_of_pos hdigits, htake,
    hdrop, List.append_nil, decimal_digits, hfind]
  rfl

theorem readShort_words (cs : List (Nat × TimeUnit)) :
    (cs.flatMap fun c => [digits c.1 ++ c.2.short]).mapM readShort = some cs := by
  induction cs with
  | nil => rfl
  | cons c cs ih =>
    rw [List.flatMap_cons, List.singleton_append, List.mapM_cons, readShort_word, ih]
    rfl

theorem find_nameOf (n : Nat) (u : TimeUnit) :
    TimeUnit.all.find? (fun v => nameOf (n, v) = nameOf (n, u)) = some u := by
  have hone : TimeUnit.all.find? (fun v => v.one = u.one) = some u := by
    cases u <;> simp [TimeUnit.all, TimeUnit.one, ascii] <;> decide
  have hmany : TimeUnit.all.find? (fun v => v.many = u.many) = some u := by
    simpa [TimeUnit.many] using hone
  unfold nameOf
  split_ifs
  · exact hone
  · exact hmany

theorem readFull_words (cs : List (Nat × TimeUnit)) :
    readFull (cs.flatMap fun c => [digits c.1, nameOf c]) = some cs := by
  induction cs with
  | nil => rfl
  | cons c cs ih =>
    rw [List.flatMap_cons, List.cons_append, List.cons_append, List.nil_append, readFull,
      decimal_digits, find_nameOf, ih]
    rfl

theorem listed_words {timeFormat : TimeFormat} (h : timeFormat ≠ .numeric)
    (cs : List (Nat × TimeUnit)) :
    listed timeFormat ([32].intercalate (cs.flatMap (wordsOf timeFormat))) = some cs := by
  have hsep : ∀ w ∈ cs.flatMap (wordsOf timeFormat), w ≠ [] ∧ (32 : UInt8) ∉ w := fun w hw =>
    have hw := words_not_blank timeFormat cs w hw
    ⟨hw.1, fun hmem => absurd (hw.2 32 hmem) (by decide)⟩
  rw [listed, Tokenize.tokenize_intercalate hsep]
  cases timeFormat with
  | numeric => exact absurd rfl h
  | fullText => exact readFull_words cs
  | shortText => exact readShort_words cs

/-- What the units of a text say of a duration. -/
structure Denotes (units : List (Nat × TimeUnit)) (d : Int64) : Prop where
  atMostThree : units.length ≤ 3
  decreasing : units.Pairwise fun c c' => c'.2.size < c.2.size
  counted : ∀ c ∈ units, c.1 ≠ 0 ∧ ∀ r ∈ c.2.ratio, c.1 < r
  exact_of_few : (nonZero (unitCounts d)).length ≤ 3 → value TimeUnit.size units = d.toInt
  close_of_many : 3 < (nonZero (unitCounts d)).length → value TimeUnit.size units ≤ d.toInt ∧
    ∃ c, units.getLast? = some c ∧ d.toInt - value TimeUnit.size units < c.2.size

theorem denotes_shown {d : Int64} (hd : 0 ≤ d) : Denotes (shown d) d := by
  have hwhole : d.toInt = d.toNatClampNeg := (Int64.cast_toNatClampNeg d hd).symm
  have hsublist : (shown d).Sublist (unitCounts d) :=
    (List.take_sublist 3 _).trans List.filter_sublist
  have hsizes : (unitCounts d).Pairwise fun c c' => c'.2.size < c.2.size := by
    rw [← List.pairwise_map (f := Prod.snd) (R := fun u v : TimeUnit => v.size < u.size),
      unitCounts, map_snd_counts]
    decide
  refine ⟨List.length_take_le 3 _, hsizes.sublist hsublist, ?_, ?_, ?_⟩
  · exact fun c hc => ⟨(mem_shown hc).2, (unitCounts_lt (mem_shown hc).1).2⟩
  · intro hfew
    have hvalue := value_take_of_le hfew
    have hrest : rest TimeUnit.size TimeUnit.all d.toNatClampNeg = 0 := Nat.mod_one _
    rw [hrest, Nat.add_zero] at hvalue
    rw [hwhole]
    exact congrArg Nat.cast hvalue
  · intro hmany
    obtain ⟨c, hlast, hle, hlt⟩ : ∃ c, (shown d).getLast? = some c ∧
        value TimeUnit.size (shown d) ≤ d.toNatClampNeg ∧
        d.toNatClampNeg < value TimeUnit.size (shown d) + c.2.size :=
      lt_of_take (by decide) hmany (by decide)
    rw [hwhole]
    refine ⟨Int.ofNat_le.mpr hle, c, hlast, ?_⟩
    omega

theorem text_denotes {timeFormat : TimeFormat} (h : timeFormat ≠ .numeric) :
    (∀ d, 0 ≤ d → ∃ text units, toTimeString d timeFormat = .ok text ∧
      listed timeFormat text = some units ∧ Denotes units d) ∧
    ∀ d d', 0 ≤ d → 0 ≤ d' → (nonZero (unitCounts d)).length ≤ 3 →
      (nonZero (unitCounts d')).length ≤ 3 →
      toTimeString d timeFormat = toTimeString d' timeFormat → d = d' := by
  constructor
  · intro d hd
    exact ⟨_, shown d, toTimeString_words h hd, listed_words h _, denotes_shown hd⟩
  · intro d d' hd hd' hfew hfew' htext
    rw [toTimeString_words h hd, toTimeString_words h hd'] at htext
    have hshown : some (shown d) = some (shown d') := by
      rw [← listed_words h, Except.ok.inj htext, listed_words h]
    rw [← Int64.toInt_inj, ← (denotes_shown hd).exact_of_few hfew, Option.some.inj hshown]
    exact (denotes_shown hd').exact_of_few hfew'

theorem text_denotes_short : ∃ text units, toTimeString 93784005006 .shortText = .ok text ∧
    listed .shortText text = some units ∧ Denotes units 93784005006 :=
  (text_denotes (nofun : TimeFormat.shortText ≠ .numeric)).1 93784005006 (by decide)

example : toTimeString 93784005006 .shortText = .ok (ascii "1d 2h 3m") := rfl

end Warhead.Time
