import Mathlib
import Mblue.Library.While

/-!
# The calendar

`convert_utc_to_calendar` of `custom_clock.h`: the seconds since 1970-01-01 00:00:00 are taken apart
into a date and a time of day. The variables are those of the source, `seconds` of 64 bits and the
others of 32, and all arithmetic wraps around as the source's does. The two loops need not end, so
the function is given fuel for each.
-/

namespace Mblue

/-- The macro `YEAR_TO_DAYS`, on `uint32_t`. -/
def yearToDays (y : UInt32) : UInt32 := y * 365 + y / 4 - y / 100 + y / 400

/-- What the function stores through its pointers. -/
structure Calendar where
  calYear : UInt16
  calMonth : UInt8
  calDay : UInt8
  calHour : UInt8
  calMinute : UInt8
  calSecond : UInt8
  deriving DecidableEq, Repr

/-- `for (year = 1969; seconds > YEAR_TO_DAYS(year + 1) + 30; year++)`. -/
def yearLoop (fuel : ℕ) (seconds : UInt64) : Option UInt32 :=
  While.run (fun year ↦ seconds > (yearToDays (year + 1) + 30).toUInt64) (· + 1) fuel 1969

/-- `for (month = 1; month < 12 && seconds > 367 * (month + 1) / 12; month++)`. -/
def monthLoop (fuel : ℕ) (seconds : UInt64) : Option UInt32 :=
  While.run (fun month ↦ month < 12 && seconds > (367 * (month + 1) / 12).toUInt64) (· + 1) fuel 1

/-- The end of the function: the months are counted from January again, and stored. -/
def storeCalendar (year month day hour minute second : UInt32) : Calendar :=
  let month := month + 2
  let adjusted := if month > 12 then (month - 12, year + 1) else (month, year)
  { calYear := adjusted.2.toUInt16
    calMonth := adjusted.1.toUInt8
    calDay := day.toUInt8
    calHour := hour.toUInt8
    calMinute := minute.toUInt8
    calSecond := second.toUInt8 }

/-- `convert_utc_to_calendar`. -/
def convertUtcToCalendar (fuel : ℕ) (seconds : UInt64) : Option Calendar := do
  let second := (seconds % 60).toUInt32
  let seconds := seconds / 60
  let minute := (seconds % 60).toUInt32
  let seconds := seconds / 60
  let hour := (seconds % 24).toUInt32
  let seconds := seconds / 24
  let seconds := seconds + 719499
  let year ← yearLoop fuel seconds
  let seconds := seconds - (yearToDays year).toUInt64
  let month ← monthLoop fuel seconds
  let seconds := seconds - (367 * month / 12).toUInt64
  some (storeCalendar year month seconds.toUInt32 hour minute second)

end Mblue
