import Mblue.Clock.CustomClock
import Mblue.Library.Gregorian

/-!
# The conversion of seconds to a date

`convert_utc_to_calendar` computes the Gregorian calendar: up to the year 65535, which is the
largest its caller can take, its two loops end and it stores the one date and time that the seconds
stand for (`convertUtcToCalendar_gregorian`).

The function counts the days from 31 days before the first March on and lets the year begin in
March. Both loops look for the last period that begins before the day, the first with the formula of
`YEAR_TO_DAYS`, the second with `367 * month / 12`; `Library/Gregorian.lean` says what the formulas
are. Below the year 65536 no arithmetic of 32 bits wraps around (`toNat_yearToDays`).
-/

namespace Mblue

open Gregorian

/-! ### What is expected -/

/-- The calendar shows a time. -/
def Calendar.Shows (c : Calendar) (t : DateTime) : Prop :=
  c.calYear.toNat = t.year ∧ c.calMonth.toNat = t.month ∧ c.calDay.toNat = t.day ∧
    c.calHour.toNat = t.hour ∧ c.calMinute.toNat = t.minute ∧ c.calSecond.toNat = t.second

/-- The function returns, with a calendar that shows the time. -/
def ConvertsTo (seconds : UInt64) (t : DateTime) : Prop :=
  ∃ least c, (∀ fuel, least ≤ fuel → convertUtcToCalendar fuel seconds = some c) ∧ c.Shows t

/-! ### The formulas on words -/

theorem toNat_iterate_succ (a : UInt32) {k : ℕ} (h : a.toNat + k < 2 ^ 32) :
    ((· + 1)^[k] a).toNat = a.toNat + k := by
  induction k with
  | zero => rfl
  | succ k ih =>
    rw [Function.iterate_succ_apply', UInt32.toNat_add, ih (by omega)]
    exact Nat.mod_eq_of_lt h

/-- **The formula does not wrap around.** -/
theorem toNat_yearToDays {y : UInt32} (h : y.toNat ≤ 65536) :
    (yearToDays y).toNat = daysBeforeMarchYear y.toNat := by
  have hmul : (y * 365).toNat = y.toNat * 365 := by
    rw [UInt32.toNat_mul]
    exact Nat.mod_eq_of_lt (Nat.lt_of_le_of_lt (Nat.mul_le_mul_right 365 h) (by decide))
  have hfour : (y / 4).toNat = y.toNat / 4 := UInt32.toNat_div y 4
  have hcentury : (y / 100).toNat = y.toNat / 100 := UInt32.toNat_div y 100
  have hleap : (y / 400).toNat = y.toNat / 400 := UInt32.toNat_div y 400
  have hle : y.toNat / 100 ≤ y.toNat := Nat.div_le_self _ _
  have hle' : y.toNat / 4 ≤ y.toNat := Nat.div_le_self _ _
  have hle'' : y.toNat / 400 ≤ y.toNat := Nat.div_le_self _ _
  have hsum : (y * 365 + y / 4).toNat = y.toNat * 365 + y.toNat / 4 := by
    rw [UInt32.toNat_add, hmul, hfour]
    exact Nat.mod_eq_of_lt (by omega)
  have hsub : (y * 365 + y / 4 - y / 100).toNat = y.toNat * 365 + y.toNat / 4 - y.toNat / 100 := by
    rw [UInt32.toNat_sub_of_le, hsum, hcentury]
    rw [UInt32.le_iff_toNat_le, hsum, hcentury]
    omega
  rw [yearToDays, UInt32.toNat_add, hsub, hleap, daysBeforeMarchYear]
  exact Nat.mod_eq_of_lt (by omega)

theorem toNat_months {m : UInt32} (h : m.toNat ≤ 12) :
    (367 * m / 12).toNat = 367 * m.toNat / 12 := by
  have hmul : (367 * m).toNat = 367 * m.toNat := by
    rw [UInt32.toNat_mul]
    exact Nat.mod_eq_of_lt (Nat.lt_of_le_of_lt (Nat.mul_le_mul_left 367 h) (by decide))
  rw [UInt32.toNat_div, hmul]
  rfl

/-! ### The loops -/

/-- The test of the first loop. -/
theorem lt_yearToDays_iff {days : UInt64} {year : UInt32} (h : year.toNat < 65536) :
    decide (days > (yearToDays (year + 1) + 30).toUInt64) = true ↔
      daysBeforeMarchYear (year.toNat + 1) + 30 < days.toNat := by
  have hsucc : (year + 1).toNat = year.toNat + 1 := by
    rw [UInt32.toNat_add]
    exact Nat.mod_eq_of_lt (by show year.toNat + 1 < _; omega)
  have hbound := daysBeforeMarchYear_add (year.toNat + 1)
  have hdays : (yearToDays (year + 1)).toNat = daysBeforeMarchYear (year.toNat + 1) := by
    rw [toNat_yearToDays (by omega), hsucc]
  have hthirty : (yearToDays (year + 1) + 30).toNat =
      daysBeforeMarchYear (year.toNat + 1) + 30 := by
    rw [UInt32.toNat_add, hdays]
    exact Nat.mod_eq_of_lt (by show _ + 30 < _; omega)
  rw [decide_eq_true_iff, gt_iff_lt, UInt64.lt_iff_toNat_lt, UInt32.toNat_toUInt64, hthirty]

/-- The first loop finds the year in which the day is. -/
theorem yearLoop_eq {days : UInt64} {y r fuel : ℕ} (hmin : 1969 ≤ y) (hmax : y ≤ 65535)
    (hdays : days.toNat = daysBeforeMarchYear y + r) (hpos : 31 ≤ r)
    (hle : r ≤ 30 + yearLength (y + 1)) (hfuel : 65535 ≤ fuel) :
    yearLoop fuel days = some (UInt32.ofNat y) := by
  have hyear : ∀ k ≤ y - 1969, ((· + 1)^[k] (1969 : UInt32)).toNat = 1969 + k := fun k hk ↦
    toNat_iterate_succ 1969 (by show 1969 + k < _; omega)
  have hlast : (· + 1)^[y - 1969] (1969 : UInt32) = UInt32.ofNat y := by
    refine UInt32.toNat.inj ?_
    rw [hyear _ le_rfl, UInt32.toNat_ofNat']
    omega
  refine (While.run_eq_iterate (n := y - 1969) (fun k hk ↦ ?_) ?_ (by omega)).trans
    (congrArg some hlast)
  · have hmono : daysBeforeMarchYear (1969 + k + 1) ≤ daysBeforeMarchYear y :=
      daysBeforeMarchYear_mono (by omega)
    rw [lt_yearToDays_iff (by rw [hyear k hk.le]; omega), hyear k hk.le]
    omega
  · have hsucc := daysBeforeMarchYear_succ y
    rw [← Bool.not_eq_true, lt_yearToDays_iff (by rw [hyear _ le_rfl]; omega), hyear _ le_rfl,
      Nat.add_sub_cancel' hmin]
    omega

/-- The test of the second loop. -/
theorem lt_months_iff {days : UInt64} {month : UInt32} (h : month.toNat ≤ 12) :
    (month < 12 && decide (days > (367 * (month + 1) / 12).toUInt64)) = true ↔
      month.toNat < 12 ∧ 367 * (month.toNat + 1) / 12 < days.toNat := by
  rw [Bool.and_eq_true, decide_eq_true_iff, decide_eq_true_iff, gt_iff_lt, UInt32.lt_iff_toNat_lt,
    UInt64.lt_iff_toNat_lt, UInt32.toNat_toUInt64]
  refine and_congr_right fun hlt ↦ ?_
  have hsucc : (month + 1).toNat = month.toNat + 1 := by
    rw [UInt32.toNat_add]
    exact Nat.mod_eq_of_lt (by show month.toNat + 1 < _; omega)
  have hlt' : month.toNat < 12 := hlt
  rw [toNat_months (by omega), hsucc]

/-- The second loop finds the month. -/
theorem monthLoop_eq {days : UInt64} {m : ℕ} {fuel : ℕ} (hmin : 1 ≤ m) (hmax : m ≤ 12)
    (hlt : 367 * m / 12 < days.toNat) (hle : m < 12 → days.toNat ≤ 367 * (m + 1) / 12)
    (hfuel : 12 ≤ fuel) : monthLoop fuel days = some (UInt32.ofNat m) := by
  have hmonth : ∀ k ≤ m - 1, ((· + 1)^[k] (1 : UInt32)).toNat = 1 + k := fun k hk ↦
    toNat_iterate_succ 1 (by show 1 + k < _; omega)
  have hlast : (· + 1)^[m - 1] (1 : UInt32) = UInt32.ofNat m := by
    refine UInt32.toNat.inj ?_
    rw [hmonth _ le_rfl, UInt32.toNat_ofNat']
    omega
  refine (While.run_eq_iterate (n := m - 1) (fun k hk ↦ ?_) ?_ (by omega)).trans
    (congrArg some hlast)
  · have hmono : 367 * (1 + k + 1) / 12 ≤ 367 * m / 12 :=
      Nat.div_le_div_right (Nat.mul_le_mul_left 367 (by omega))
    rw [lt_months_iff (by rw [hmonth k hk.le]; omega), hmonth k hk.le]
    omega
  · rw [← Bool.not_eq_true, lt_months_iff (by rw [hmonth _ le_rfl]; omega), hmonth _ le_rfl,
      Nat.add_sub_cancel' hmin]
    omega

/-! ### The function -/

/-- The time of day, and the days from 31 days before the first March on. -/
theorem parts_eq {seconds : UInt64} {t : DateTime} (h : t.unixTime = seconds.toNat) :
    (seconds % 60).toNat = t.second ∧ (seconds / 60 % 60).toNat = t.minute ∧
      (seconds / 60 / 60 % 24).toNat = t.hour ∧ (seconds / 60 / 60 / 24 + 719499).toNat =
        daysBeforeMarchYear t.marchYear + (367 * t.marchMonth / 12 + t.day) := by
  have hyear : 1970 ≤ t.year := DateTime.year_epoch_le (by omega)
  have hday := t.dayNumber_march (by omega)
  have hhour := t.hour_lt
  have hminute := t.minute_lt
  have hsecond := t.second_lt
  have hlt := seconds.toNat_lt
  rw [DateTime.unixTime, DateTime.count_epoch, DateTime.count] at h
  have hdays : (seconds / 60 / 60 / 24 + 719499).toNat = seconds.toNat / 60 / 60 / 24 + 719499 := by
    rw [UInt64.toNat_add]
    refine Nat.mod_eq_of_lt ?_
    show seconds.toNat / 60 / 60 / 24 + 719499 < _
    omega
  rw [hdays]
  refine ⟨?_, ?_, ?_, by omega⟩
  · show seconds.toNat % 60 = _
    omega
  · show seconds.toNat / 60 % 60 = _
    omega
  · show seconds.toNat / 60 / 60 % 24 = _
    omega

theorem toNat_ofNat_of_lt {n : ℕ} (h : n < 2 ^ 32) : (UInt32.ofNat n).toNat = n := by
  rw [UInt32.toNat_ofNat']
  exact Nat.mod_eq_of_lt h

/-- The months are those from January on. -/
theorem shows_storeCalendar {t : DateTime} {year month day hour minute second : UInt32}
    (hpos : 1 ≤ t.year) (hle : t.year ≤ 65535) (hyear : year.toNat = t.marchYear)
    (hmonth : month.toNat = t.marchMonth) (hday : day.toNat = t.day) (hhour : hour.toNat = t.hour)
    (hminute : minute.toNat = t.minute) (hsecond : second.toNat = t.second) :
    (storeCalendar year month day hour minute second).Shows t := by
  have hfirst := t.month_pos
  have hlast := t.month_le
  have hdayLe := t.day_le.trans (monthLength_le t.year t.month)
  have hhourLt := t.hour_lt
  have hminuteLt := t.minute_lt
  have hsecondLt := t.second_lt
  have hmarch := t.marchMonth_le
  have htwo : (month + 2).toNat = t.marchMonth + 2 := by
    rw [UInt32.toNat_add, hmonth]
    exact Nat.mod_eq_of_lt (by show _ + 2 < _; omega)
  have hwrap : month + 2 > 12 ↔ t.month ≤ 2 := by
    rw [gt_iff_lt, UInt32.lt_iff_toNat_lt, htwo]
    show 12 < _ ↔ _
    unfold Date.marchMonth
    split <;> omega
  -- January and February belong to the year that March began
  have hadjusted :
      (if month + 2 > 12 then (month + 2 - 12, year + 1) else (month + 2, year)).2.toNat = t.year ∧
      (if month + 2 > 12 then (month + 2 - 12, year + 1) else (month + 2, year)).1.toNat =
        t.month := by
    unfold Date.marchYear at hyear
    unfold Date.marchMonth at htwo
    by_cases hm : t.month ≤ 2
    · rw [if_pos hm] at hyear htwo
      have hle : (12 : UInt32) ≤ month + 2 := by
        rw [UInt32.le_iff_toNat_le, htwo]
        exact Nat.le_add_left 12 t.month
      rw [if_pos (hwrap.2 hm)]
      refine ⟨?_, ?_⟩
      · show (year + 1).toNat = _
        rw [UInt32.toNat_add, hyear]
        show (_ + 1) % _ = _
        omega
      · show (month + 2 - 12).toNat = _
        rw [UInt32.toNat_sub_of_le _ _ hle, htwo]
        exact Nat.add_sub_cancel t.month 12
    · rw [if_neg hm] at hyear htwo
      rw [if_neg (mt hwrap.1 hm)]
      exact ⟨hyear, htwo.trans (by omega)⟩
  refine ⟨?_, ?_, ?_, ?_, ?_, ?_⟩ <;> unfold storeCalendar <;> dsimp only
  · rw [UInt32.toNat_toUInt16, hadjusted.1]
    omega
  · rw [UInt32.toNat_toUInt8, hadjusted.2]
    omega
  · rw [UInt32.toNat_toUInt8]
    omega
  · rw [UInt32.toNat_toUInt8]
    omega
  · rw [UInt32.toNat_toUInt8]
    omega
  · rw [UInt32.toNat_toUInt8]
    omega

/-- The function shows the time it is given. -/
theorem convertsTo_of_unixTime {seconds : UInt64} {t : DateTime} (h : t.unixTime = seconds.toNat)
    (hle : t.year ≤ 65535) : ConvertsTo seconds t := by
  obtain ⟨hsecond, hminute, hhour, hdays⟩ := parts_eq h
  have hmin : 1970 ≤ t.year := DateTime.year_epoch_le (by omega)
  have hmarch : 1969 ≤ t.marchYear ∧ t.marchYear ≤ 65535 := by
    unfold Date.marchYear
    split <;> omega
  have hfirst := t.marchMonth_pos
  have hlast := t.marchMonth_le
  have hday := t.day_pos
  have hrest := t.day_le_yearLength (by omega)
  have hyear := toNat_ofNat_of_lt (n := t.marchYear) (by omega)
  have hmonth := toNat_ofNat_of_lt (n := t.marchMonth) (by omega)
  let days := seconds / 60 / 60 / 24 + 719499
  have hdays : days.toNat =
    daysBeforeMarchYear t.marchYear + (367 * t.marchMonth / 12 + t.day) := hdays
  let inYear := days - (yearToDays (UInt32.ofNat t.marchYear)).toUInt64
  let inMonth := inYear - (367 * UInt32.ofNat t.marchMonth / 12).toUInt64
  have hyears : (yearToDays (UInt32.ofNat t.marchYear)).toUInt64.toNat =
      daysBeforeMarchYear t.marchYear := by
    rw [UInt32.toNat_toUInt64, toNat_yearToDays (by omega), hyear]
  -- neither subtraction goes below zero
  have hinYear : inYear.toNat = 367 * t.marchMonth / 12 + t.day := by
    rw [UInt64.toNat_sub_of_le, hyears]
    · omega
    · rw [UInt64.le_iff_toNat_le, hyears]
      omega
  have hmonths : (367 * UInt32.ofNat t.marchMonth / 12).toUInt64.toNat =
      367 * t.marchMonth / 12 := by
    rw [UInt32.toNat_toUInt64, toNat_months (by omega), hmonth]
  have hinMonth : inMonth.toNat = t.day := by
    rw [UInt64.toNat_sub_of_le, hmonths]
    · omega
    · rw [UInt64.le_iff_toNat_le, hmonths]
      omega
  refine ⟨65535, storeCalendar (UInt32.ofNat t.marchYear) (UInt32.ofNat t.marchMonth)
    inMonth.toUInt32 (seconds / 60 / 60 % 24).toUInt32 (seconds / 60 % 60).toUInt32
    (seconds % 60).toUInt32, fun fuel hfuel ↦ ?_, ?_⟩
  · have hyearLoop : yearLoop fuel days = _ :=
      yearLoop_eq hmarch.1 hmarch.2 hdays (by omega) hrest hfuel
    have hmonthLoop : monthLoop fuel inYear = _ :=
      monthLoop_eq hfirst hlast (by rw [hinYear]; omega)
        (fun hlt ↦ by rw [hinYear]; exact t.day_le_march hlt) (by omega)
    show (yearLoop fuel days).bind _ = _
    rw [hyearLoop]
    show (monthLoop fuel inYear).bind _ = _
    rw [hmonthLoop]
    rfl
  · have hhourLt := t.hour_lt
    have hminuteLt := t.minute_lt
    have hsecondLt := t.second_lt
    have hdayLe := t.day_le.trans (monthLength_le t.year t.month)
    refine shows_storeCalendar (by omega) hle hyear hmonth ?_ ?_ ?_ ?_ <;>
      rw [UInt64.toNat_toUInt32] <;> omega

/-- **The conversion is that of the Gregorian calendar.** For every number of seconds whose year is
at most 65535 there is one time with this number, and the function returns it. -/
theorem convertUtcToCalendar_gregorian (seconds : UInt64)
    (hyear : ∀ t : DateTime, t.unixTime = seconds.toNat → t.year ≤ 65535) :
    ∃! t : DateTime, t.unixTime = seconds.toNat ∧ ConvertsTo seconds t := by
  obtain ⟨t, ht, hunique⟩ := DateTime.existsUnique_unixTime seconds.toNat
  exact ⟨t, ⟨ht, convertsTo_of_unixTime ht (hyear t ht)⟩, fun t' ht' ↦ hunique t' ht'.1⟩

/-- Noon of a leap day of a century. -/
def leapNoon : DateTime :=
  { DateTime.epoch with
    toDate := ⟨2000, 2, 29, by decide, by decide, by decide, by decide⟩
    hour := 12
    hour_lt := by decide }

theorem unixTime_leapNoon : leapNoon.unixTime = 951825600 := by
  have hday : leapNoon.dayNumber = 730544 := Date.dayNumber_march leapNoon.toDate (by decide)
  rw [DateTime.unixTime, DateTime.count_epoch, DateTime.count, hday]
  norm_num [leapNoon, DateTime.epoch]

theorem convertUtcToCalendar_leapNoon :
    ∃! t : DateTime, t.unixTime = (951825600 : UInt64).toNat ∧ ConvertsTo 951825600 t :=
  convertUtcToCalendar_gregorian 951825600 fun t ht ↦ by
    have hunique := (DateTime.existsUnique_unixTime 951825600).unique ht unixTime_leapNoon
    rw [hunique]
    decide

end Mblue
