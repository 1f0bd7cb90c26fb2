import Mathlib

/-!
# The Gregorian calendar

Dates of the proleptic Gregorian calendar from the year 0 on, and the number of days that have
passed before a date. `Date` and `DateTime` carry their bounds, so that there is no 30th of
February; `Date.next` is the following day. Counting days, and seconds, is a bijection with the
natural numbers: every number belongs to exactly one date.

Computations on the calendar start the year in March, when the leap day is the last day of the year
and the months have lengths that a linear formula gives (`daysBeforeMarchYear`, `367 / 12` days a
month).

## What is proved here

* `Date.dayNumber_injective`, `Date.exists_dayNumber_eq` — every day has one date.
* `DateTime.existsUnique_count` — every second has one date and time.
* `Date.dayNumber_march`, `Date.day_le_march`, `Date.day_le_yearLength` — the formulas.
-/

namespace Gregorian

/-! ### Years and months -/

/-- Every fourth year is a leap year, but of the centuries only every fourth. -/
def isLeap (year : ℕ) : Bool := (4 ∣ year ∧ ¬100 ∣ year) ∨ 400 ∣ year

/-- The number of days of a month, 1 to 12. -/
def monthLength (year month : ℕ) : ℕ :=
  if month = 2 then if isLeap year then 29 else 28
  else if month = 4 ∨ month = 6 ∨ month = 9 ∨ month = 11 then 30
  else 31

theorem monthLength_le (year month : ℕ) : monthLength year month ≤ 31 := by
  unfold monthLength
  split
  · split <;> decide
  · split <;> decide

/-- The number of days of the months before a month. -/
def daysBeforeMonth (year : ℕ) : ℕ → ℕ
  | 0 | 1 => 0
  | month + 2 => daysBeforeMonth year (month + 1) + monthLength year (month + 1)

/-- The number of days of a year. -/
def yearLength (year : ℕ) : ℕ := if isLeap year then 366 else 365

/-- The number of days of the years before a year. -/
def daysBeforeYear : ℕ → ℕ
  | 0 => 0
  | year + 1 => daysBeforeYear year + yearLength year

theorem daysBeforeMonth_succ {year month : ℕ} (h : 1 ≤ month) :
    daysBeforeMonth year (month + 1) = daysBeforeMonth year month + monthLength year month := by
  obtain ⟨month, rfl⟩ := Nat.exists_eq_succ_of_ne_zero (Nat.one_le_iff_ne_zero.1 h)
  rfl

theorem daysBeforeMonth_mono (year : ℕ) : Monotone (daysBeforeMonth year) := by
  refine monotone_nat_of_le_succ fun month ↦ ?_
  rcases Nat.eq_zero_or_pos month with rfl | hpos
  · exact le_rfl
  · rw [daysBeforeMonth_succ hpos]
    exact Nat.le_add_right _ _

theorem daysBeforeYear_mono : Monotone daysBeforeYear :=
  monotone_nat_of_le_succ fun _ ↦ Nat.le_add_right _ _

/-- The months fill the year. -/
theorem daysBeforeMonth_end (year : ℕ) :
    daysBeforeMonth year 12 + monthLength year 12 = yearLength year := by
  cases h : isLeap year <;> simp [daysBeforeMonth, monthLength, yearLength, h]

/-! ### The year from March on -/

/-- The number of days of the years before a year, when years begin in March. -/
def daysBeforeMarchYear (year : ℕ) : ℕ := year * 365 + year / 4 - year / 100 + year / 400

theorem daysBeforeMarchYear_add (year : ℕ) :
    daysBeforeMarchYear year + year / 100 = year * 365 + year / 4 + year / 400 := by
  have hle : year / 100 ≤ year := Nat.div_le_self year 100
  unfold daysBeforeMarchYear
  omega

/-- The length of a year as a sum. -/
theorem yearLength_add (year : ℕ) : yearLength year + (if 100 ∣ year then 1 else 0) =
    365 + (if 4 ∣ year then 1 else 0) + (if 400 ∣ year then 1 else 0) := by
  have hfour : 100 ∣ year → 4 ∣ year := dvd_trans (by decide)
  have hcentury : 400 ∣ year → 100 ∣ year := dvd_trans (by decide)
  unfold yearLength isLeap
  by_cases h400 : 400 ∣ year
  · simp [h400, hcentury h400, hfour (hcentury h400)]
  · by_cases h100 : 100 ∣ year
    · simp [h400, h100, hfour h100]
    · by_cases h4 : 4 ∣ year <;> simp [h400, h100, h4]

/-- A year from March on ends with the February of the next. -/
theorem daysBeforeMarchYear_succ (year : ℕ) : daysBeforeMarchYear (year + 1) =
    daysBeforeMarchYear year + yearLength (year + 1) := by
  have hsucc := daysBeforeMarchYear_add (year + 1)
  have hyear := daysBeforeMarchYear_add year
  have hlength := yearLength_add (year + 1)
  rw [Nat.succ_div, Nat.succ_div, Nat.succ_div] at hsucc
  linarith

theorem daysBeforeMarchYear_mono : Monotone daysBeforeMarchYear :=
  monotone_nat_of_le_succ fun year ↦ by
    rw [daysBeforeMarchYear_succ]
    exact Nat.le_add_right _ _

/-- The end of a year, which is 306 days after the first of March. -/
theorem daysBeforeYear_march (year : ℕ) :
    daysBeforeYear (year + 1) = 366 + daysBeforeMarchYear year := by
  induction year with
  | zero => rfl
  | succ year ih => rw [daysBeforeYear, ih, daysBeforeMarchYear_succ, Nat.add_assoc]

/-- From March on, the months before a month have `367 / 12` days each, rounded. -/
theorem daysBeforeMonth_march (year : ℕ) {month : ℕ} (hmin : 1 ≤ month) (hmax : month ≤ 10) :
    daysBeforeMonth year (month + 2) + 336 = yearLength year + 367 * month / 12 := by
  cases h : isLeap year <;> interval_cases month <;>
    simp [daysBeforeMonth, monthLength, yearLength, h]

/-! ### Dates -/

/-- A date. -/
@[ext] structure Date where
  year : ℕ
  month : ℕ
  day : ℕ
  month_pos : 1 ≤ month
  month_le : month ≤ 12
  day_pos : 1 ≤ day
  day_le : day ≤ monthLength year month

namespace Date

/-- The first day. -/
def zero : Date := ⟨0, 1, 1, by decide, by decide, by decide, by decide⟩

/-- The number of days before a date. -/
def dayNumber (d : Date) : ℕ := daysBeforeYear d.year + daysBeforeMonth d.year d.month + (d.day - 1)

theorem daysBeforeMonth_add_lt (d : Date) :
    daysBeforeMonth d.year d.month + (d.day - 1) < daysBeforeMonth d.year (d.month + 1) := by
  have hpos := d.day_pos
  have hle := d.day_le
  rw [daysBeforeMonth_succ d.month_pos]
  omega

theorem dayNumber_lt (d : Date) : d.dayNumber < daysBeforeYear (d.year + 1) := by
  have hmonth := d.daysBeforeMonth_add_lt
  have hend : daysBeforeMonth d.year (d.month + 1) ≤ yearLength d.year := by
    rw [← daysBeforeMonth_end, ← daysBeforeMonth_succ (by decide)]
    exact daysBeforeMonth_mono _ (Nat.succ_le_succ d.month_le)
  rw [dayNumber, daysBeforeYear]
  omega

/-- A date is counted after all those of earlier years. -/
theorem dayNumber_lt_of_year_lt {d e : Date} (h : d.year < e.year) : d.dayNumber < e.dayNumber := by
  have hd := d.dayNumber_lt
  have hmono := daysBeforeYear_mono (Nat.succ_le_of_lt h)
  have he : daysBeforeYear e.year ≤ e.dayNumber := by
    rw [dayNumber]
    omega
  exact hd.trans_le (hmono.trans he)

theorem dayNumber_lt_of_month_lt {d e : Date} (hyear : d.year = e.year) (h : d.month < e.month) :
    d.dayNumber < e.dayNumber := by
  have hd := d.daysBeforeMonth_add_lt
  have hmono : daysBeforeMonth e.year (d.month + 1) ≤ daysBeforeMonth e.year e.month :=
    daysBeforeMonth_mono e.year h
  rw [dayNumber, dayNumber, hyear]
  rw [hyear] at hd
  omega

/-- **A number belongs to one date at most.** -/
theorem dayNumber_injective : Function.Injective dayNumber := by
  intro d e heq
  have hyear : d.year = e.year := by
    rcases Nat.lt_trichotomy d.year e.year with hlt | heq' | hgt
    · exact absurd heq (dayNumber_lt_of_year_lt hlt).ne
    · exact heq'
    · exact absurd heq (dayNumber_lt_of_year_lt hgt).ne'
  have hmonth : d.month = e.month := by
    rcases Nat.lt_trichotomy d.month e.month with hlt | heq' | hgt
    · exact absurd heq (dayNumber_lt_of_month_lt hyear hlt).ne
    · exact heq'
    · exact absurd heq (dayNumber_lt_of_month_lt hyear.symm hgt).ne'
  have hd := d.day_pos
  have he := e.day_pos
  rw [dayNumber, dayNumber, hyear, hmonth] at heq
  exact Date.ext hyear hmonth (by omega)

theorem monthLength_pos (year month : ℕ) : 1 ≤ monthLength year month := by
  unfold monthLength
  split
  · split <;> decide
  · split <;> decide

/-- The following day. -/
def next (d : Date) : Date :=
  if hday : d.day < monthLength d.year d.month then
    ⟨d.year, d.month, d.day + 1, d.month_pos, d.month_le, Nat.le_add_left 1 _, hday⟩
  else if hmonth : d.month < 12 then
    ⟨d.year, d.month + 1, 1, Nat.le_add_left 1 _, hmonth, le_rfl, monthLength_pos _ _⟩
  else ⟨d.year + 1, 1, 1, le_rfl, by decide, le_rfl, monthLength_pos _ _⟩

/-- The following day is counted next. -/
theorem dayNumber_next (d : Date) : d.next.dayNumber = d.dayNumber + 1 := by
  have hpos := d.day_pos
  have hle := d.day_le
  unfold next
  split
  · simp only [dayNumber]
    omega
  · next hday =>
    split
    · simp only [dayNumber, daysBeforeMonth_succ d.month_pos]
      omega
    · next hmonth =>
      have hlast : d.month = 12 := Nat.le_antisymm d.month_le (Nat.le_of_not_lt hmonth)
      have hend := daysBeforeMonth_end d.year
      have hfirst : daysBeforeMonth (d.year + 1) 1 = 0 := rfl
      rw [hlast] at hday hle
      simp only [dayNumber, daysBeforeYear, hlast, hfirst]
      omega

/-- **Every number belongs to a date.** -/
theorem exists_dayNumber_eq (n : ℕ) : ∃ d : Date, d.dayNumber = n := by
  induction n with
  | zero => exact ⟨zero, rfl⟩
  | succ n ih =>
    obtain ⟨d, rfl⟩ := ih
    exact ⟨d.next, d.dayNumber_next⟩

/-! ### The year from March on -/

/-- The year a date is in when years begin in March. -/
def marchYear (d : Date) : ℕ := if d.month ≤ 2 then d.year - 1 else d.year

/-- The month, 1 for March to 12 for February. -/
def marchMonth (d : Date) : ℕ := if d.month ≤ 2 then d.month + 10 else d.month - 2

theorem marchMonth_pos (d : Date) : 1 ≤ d.marchMonth := by
  have hpos := d.month_pos
  unfold marchMonth
  split <;> omega

theorem marchMonth_le (d : Date) : d.marchMonth ≤ 12 := by
  have hle := d.month_le
  unfold marchMonth
  split <;> omega

/-- **The day of a date by formulas**: the years from March on, and the months of `367 / 12`
days. -/
theorem dayNumber_march (d : Date) (h : 1 ≤ d.year) : d.dayNumber =
    29 + daysBeforeMarchYear d.marchYear + 367 * d.marchMonth / 12 + d.day := by
  have hpos := d.day_pos
  have hfirst := d.month_pos
  have hlast := d.month_le
  unfold dayNumber marchYear marchMonth
  split
  · next hmonth =>
    obtain ⟨year, hyear⟩ := Nat.exists_eq_add_of_le' h
    have hbefore := daysBeforeYear_march year
    rw [hyear, Nat.add_sub_cancel, hbefore]
    have hmonths : d.month = 1 ∨ d.month = 2 := by omega
    have hjanuary : monthLength (year + 1) 1 = 31 := rfl
    rcases hmonths with hone | htwo
    · rw [hone, daysBeforeMonth]
      omega
    · rw [htwo, daysBeforeMonth, daysBeforeMonth, hjanuary]
      omega
  · next hmonth =>
    obtain ⟨month, hmonths⟩ := Nat.exists_eq_add_of_le' (Nat.le_of_not_le hmonth)
    have hbefore := daysBeforeYear_march d.year
    have hformula := @daysBeforeMonth_march d.year month (by omega) (by omega)
    rw [daysBeforeYear] at hbefore
    rw [hmonths, Nat.add_sub_cancel]
    omega

/-- No month is longer than the formula says. -/
theorem day_le_march (d : Date) (h : d.marchMonth < 12) :
    367 * d.marchMonth / 12 + d.day ≤ 367 * (d.marchMonth + 1) / 12 := by
  obtain ⟨year, month, day, hfirst, hlast, hpos, hle⟩ := d
  unfold marchMonth at h ⊢
  dsimp only at h ⊢
  unfold monthLength at hle
  interval_cases month <;> simp at h hle ⊢ <;> omega

/-- The year ends with its last month. -/
theorem day_le_yearLength (d : Date) (h : 1 ≤ d.year) : 367 * d.marchMonth / 12 + d.day ≤
    30 + yearLength (d.marchYear + 1) := by
  have hle := d.marchMonth_le
  have hlength : 365 ≤ yearLength (d.marchYear + 1) := by
    unfold yearLength
    split <;> decide
  rcases Nat.lt_or_ge d.marchMonth 12 with hlt | hge
  · have hday := d.day_le_march hlt
    omega
  · have hfebruary : d.month = 2 ∧ d.marchMonth = 12 := by
      have hlast := d.month_le
      refine ⟨?_, Nat.le_antisymm hle hge⟩
      unfold marchMonth at hge
      split at hge <;> omega
    have hyear : d.marchYear + 1 = d.year := by
      unfold marchYear
      rw [hfebruary.1, if_pos le_rfl]
      omega
    have hday := d.day_le
    rw [hfebruary.1] at hday
    rw [hfebruary.2, hyear]
    rw [monthLength, if_pos rfl] at hday
    unfold yearLength
    cases h : isLeap d.year <;> simp only [h, if_true, if_false, Bool.false_eq_true] at hday ⊢ <;>
      omega

end Date

/-! ### Times -/

/-- A date and a time of day. -/
@[ext] structure DateTime extends Date where
  hour : ℕ
  minute : ℕ
  second : ℕ
  hour_lt : hour < 24
  minute_lt : minute < 60
  second_lt : second < 60

namespace DateTime

/-- The number of seconds before a time. -/
def count (t : DateTime) : ℕ :=
  t.dayNumber * 86400 + t.hour * 3600 + t.minute * 60 + t.second

/-- **Every number of seconds belongs to exactly one time.** -/
theorem existsUnique_count (n : ℕ) : ∃! t : DateTime, t.count = n := by
  obtain ⟨d, hd⟩ := Date.exists_dayNumber_eq (n / 86400)
  refine ⟨⟨d, n % 86400 / 3600, n % 3600 / 60, n % 60, by omega, by omega, by omega⟩, ?_, ?_⟩
  · show d.dayNumber * 86400 + n % 86400 / 3600 * 3600 + n % 3600 / 60 * 60 + n % 60 = n
    omega
  · intro t ht
    have hhour := t.hour_lt
    have hminute := t.minute_lt
    have hsecond := t.second_lt
    rw [count] at ht
    have hdate : t.toDate = d := Date.dayNumber_injective (by omega)
    have htime : t.hour = n % 86400 / 3600 ∧ t.minute = n % 3600 / 60 ∧ t.second = n % 60 := by
      rw [hdate, hd] at ht
      omega
    exact DateTime.ext (by rw [hdate]) (by rw [hdate]) (by rw [hdate]) htime.1 htime.2.1 htime.2.2

/-- 1970-01-01 00:00:00. -/
def epoch : DateTime where
  toDate := ⟨1970, 1, 1, by decide, by decide, by decide, by decide⟩
  hour := 0
  minute := 0
  second := 0
  hour_lt := by decide
  minute_lt := by decide
  second_lt := by decide

/-- The number of seconds since the epoch. -/
def unixTime (t : DateTime) : ℤ := t.count - epoch.count

theorem dayNumber_epoch : epoch.dayNumber = 719528 := Date.dayNumber_march epoch.toDate (by decide)

theorem count_epoch : epoch.count = 62167219200 := by
  rw [count, dayNumber_epoch]
  rfl

/-- What comes after the epoch has its year or a later one. -/
theorem year_epoch_le {t : DateTime} (h : 0 ≤ t.unixTime) : 1970 ≤ t.year := by
  by_contra hlt
  have hday : t.dayNumber < epoch.dayNumber := Date.dayNumber_lt_of_year_lt (Nat.lt_of_not_le hlt)
  have hhour := t.hour_lt
  have hminute := t.minute_lt
  have hsecond := t.second_lt
  rw [dayNumber_epoch] at hday
  rw [unixTime, count_epoch, count] at h
  omega

/-- **Every number of seconds since the epoch belongs to exactly one time.** -/
theorem existsUnique_unixTime (n : ℕ) : ∃! t : DateTime, t.unixTime = n := by
  refine (existsUnique_congr fun t ↦ ?_).1 (existsUnique_count (n + epoch.count))
  unfold unixTime
  omega

end DateTime

end Gregorian
