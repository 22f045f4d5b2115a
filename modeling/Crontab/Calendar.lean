/-! # The proleptic Gregorian calendar

Every day has a number, counted from 1970-01-01, and the Gregorian leap rule is
carried back without end: year `0` exists and is a leap year.

`Date.dayNumber` counts the days up to a date; `Date.ofDayNumber` finds the date
again by dividing out the cycles of 400, 100 and 4 years, and `Date.weekday` reads
the day of the week off the number.  Dates from `firstYear` to `lastYear` are in use
(`Date.InUse`); a computation that leaves them has no answer.
-/

namespace Crontab

/-- Every fourth year is a leap year, save the centuries that 400 does not divide. -/
def isLeapYear (year : Int) : Bool :=
  (year % 4 == 0 && year % 100 != 0) || year % 400 == 0

/-- The number of days in a month, counted from `0` for January.  Every number that
is not one of the four short months or February counts as a month of 31 days. -/
def monthLength (year : Int) (month : Nat) : Nat :=
  match month with
  | 1 => if isLeapYear year then 29 else 28
  | 3 | 5 | 8 | 10 => 30
  | _ => 31

/-- The greatest number of days that a month has in any year. -/
def longestMonth (month : Nat) : Nat := monthLength 2000 month

theorem monthLength_le_longestMonth (year : Int) (month : Nat) :
    monthLength year month ≤ longestMonth month := by
  unfold longestMonth monthLength
  split
  · split <;> decide
  · exact Nat.le_refl _
  · exact Nat.le_refl _
  · exact Nat.le_refl _
  · exact Nat.le_refl _
  · exact Nat.le_refl _

/-- The earliest year with dates in use. -/
def firstYear : Int := -262143

/-- The latest year with dates in use. -/
def lastYear : Int := 262142

/-- A year, a month counted from `0` for January, and a day counted from `1`. -/
structure Date where
  /-- The year, with a year `0` before the year `1`. -/
  year : Int
  /-- The month, `0` for January. -/
  month : Nat
  /-- The day of the month, `1` for the first. -/
  day : Nat
  deriving DecidableEq

namespace Date

/-- The date names a day of the calendar. -/
def Exists (d : Date) : Prop :=
  d.month < 12 ∧ 1 ≤ d.day ∧ d.day ≤ monthLength d.year d.month

instance (d : Date) : Decidable d.Exists :=
  inferInstanceAs (Decidable (_ ∧ _ ∧ _))

/-- The date names a day of one of the years in use. -/
def InUse (d : Date) : Prop :=
  (firstYear ≤ d.year ∧ d.year ≤ lastYear) ∧ d.Exists

instance (d : Date) : Decidable d.InUse :=
  inferInstanceAs (Decidable (_ ∧ _))

/-! ### Days by number -/

/-- The days from 0001-01-01 to the first day of a year. -/
def daysBeforeYear (year : Int) : Int :=
  365 * (year - 1) + (year - 1) / 4 - (year - 1) / 100 + (year - 1) / 400

/-- The days from the first day of a year to the first day of one of its months. -/
def daysBeforeMonth (year : Int) : Nat → Nat
  | 0 => 0
  | month + 1 => daysBeforeMonth year month + monthLength year month

/-- The days from 0001-01-01 to 1970-01-01. -/
def epochDay : Int := 719162

/-- The number of a day, `0` for 1970-01-01. -/
def dayNumber (d : Date) : Int :=
  daysBeforeYear d.year + daysBeforeMonth d.year d.month + d.day - 1 - epochDay

/-- The month and day that lie `rest` days after the first of `month`, looking no
further than `left` months on. -/
def locate (year : Int) : (left month rest : Nat) → Nat × Nat
  | 0, month, rest => (month, rest + 1)
  | left + 1, month, rest =>
    if rest < monthLength year month then (month, rest + 1)
    else locate year left (month + 1) (rest - monthLength year month)

/-- The date of a numbered day.  A cycle of 400 years has 146097 days; within it the
last century, and within four years the last year, may run one day longer than the
others, which the two minima allow for. -/
def ofDayNumber (n : Int) : Date :=
  let sinceFirst := n + epochDay
  let inCycle := (sinceFirst % 146097).toNat
  let century := min 3 (inCycle / 36524)
  let inCentury := inCycle - century * 36524
  let inFour := inCentury % 1461
  let single := min 3 (inFour / 365)
  let year := sinceFirst / 146097 * 400 + century * 100 + inCentury / 1461 * 4 + single + 1
  let (month, day) := locate year 11 0 (inFour - single * 365)
  { year, month, day }

/-- The day of the week, `0` for Sunday.  1970-01-01 was a Thursday. -/
def weekday (d : Date) : Nat :=
  ((d.dayNumber + 4) % 7).toNat

example : dayNumber ⟨1970, 0, 1⟩ = 0 := by decide
example : dayNumber ⟨2000, 1, 29⟩ = 11016 := by decide
example : ofDayNumber 11016 = ⟨2000, 1, 29⟩ := by decide
example : ofDayNumber (dayNumber ⟨firstYear, 0, 1⟩) = ⟨firstYear, 0, 1⟩ := by decide
example : ofDayNumber (dayNumber ⟨lastYear, 11, 31⟩) = ⟨lastYear, 11, 31⟩ := by decide
example : weekday ⟨2026, 4, 29⟩ = 5 := by decide

end Date

end Crontab
