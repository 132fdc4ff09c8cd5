/-!
# `CommandGrammar.Timestamp.Calendar` — the Gregorian calendar

The calendar is used for all years, also those before it was introduced, and year 0 precedes year 1.
Days are counted from 1970-01-01. Counting years from March makes the leap day the last of its year.

## Contents
- `Calendar.Date`, `Calendar.Date.Exists`: a year, month and day.
- `Calendar.Date.toDay`, `Calendar.Date.ofDay`: dates and day numbers.
- `Calendar.weekday`: the day of the week.
-/

namespace CommandGrammar
namespace Calendar

/-- A year, a month counted from 1, and a day of the month. -/
structure Date where
  year : Int
  month : Nat
  day : Nat
  deriving Repr, DecidableEq

/-- Every fourth year is a leap year, but of the hundredth only every fourth. -/
def isLeap (year : Int) : Bool :=
  year % 4 = 0 && (year % 100 != 0 || year % 400 = 0)

/-- The number of days in a month. -/
def daysInMonth (year : Int) (month : Nat) : Nat :=
  if month = 2 then if isLeap year then 29 else 28
  else if month = 4 ∨ month = 6 ∨ month = 9 ∨ month = 11 then 30
  else 31

/-- The first year that can be represented. -/
def firstYear : Int := -262143

/-- The last year that can be represented. -/
def lastYear : Int := 262142

/-- A date of the calendar, in a year that can be represented. -/
def Date.Exists (d : Date) : Prop :=
  firstYear ≤ d.year ∧ d.year ≤ lastYear ∧ 1 ≤ d.month ∧ d.month ≤ 12 ∧ 1 ≤ d.day ∧
    d.day ≤ daysInMonth d.year d.month

instance (d : Date) : Decidable d.Exists := by
  unfold Date.Exists
  exact inferInstance

/-- The days from 0000-03-01 to 1970-01-01. -/
def epoch : Int := 719468

/-- The number of a date's day. -/
def Date.toDay (d : Date) : Int :=
  let year := if d.month ≤ 2 then d.year - 1 else d.year
  let month := (d.month + 9) % 12
  365 * year + year / 4 - year / 100 + year / 400 + (153 * month + 2) / 5 + d.day - 1 - epoch

/-- The date of a day number. -/
def Date.ofDay (day : Int) : Date :=
  let shifted := day + epoch
  let era := shifted / 146097
  let inEra := shifted % 146097
  let yearInEra := (inEra - inEra / 1460 + inEra / 36524 - inEra / 146096) / 365
  let inYear := inEra - (365 * yearInEra + yearInEra / 4 - yearInEra / 100)
  let month := (5 * inYear + 2) / 153
  let dayOfMonth := inYear - (153 * month + 2) / 5 + 1
  let year := yearInEra + 400 * era
  if month < 10 then ⟨year, (month + 3).toNat, dayOfMonth.toNat⟩
  else ⟨year + 1, (month - 9).toNat, dayOfMonth.toNat⟩

/-- The day of the week, counted from Sunday as 0. -/
def weekday (day : Int) : Nat :=
  ((day + 4) % 7).toNat

end Calendar
end CommandGrammar
