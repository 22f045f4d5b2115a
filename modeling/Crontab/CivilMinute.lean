import Crontab.Stamp

/-! # Minutes of the calendar

A `CivilMinute` is a date with an hour and a minute.  Every point on a clock
lies in one (`Stamp.civil`), and every one of a date in use starts at a wall time
(`CivilMinute.toWall?`).
-/

namespace Crontab

/-- A date, an hour and a minute. -/
structure CivilMinute extends Date where
  /-- The hour of the day. -/
  hour : Nat
  /-- The minute of the hour. -/
  minute : Nat
  deriving DecidableEq

namespace CivilMinute

/-- The minute names a day in use, an hour of the day and a minute of the hour. -/
def InUse (c : CivilMinute) : Prop := c.toDate.InUse ∧ c.hour < 24 ∧ c.minute < 60

instance (c : CivilMinute) : Decidable c.InUse :=
  inferInstanceAs (Decidable (_ ∧ _ ∧ _))

/-- The minutes from the start of 1970-01-01. -/
def number (c : CivilMinute) : Int := (c.toDate.dayNumber * 24 + c.hour) * 60 + c.minute

/-- The wall time at which the minute starts, if its date is in use. -/
def toWall? (c : CivilMinute) : Option WallTime :=
  if c.InUse then Stamp.of? (c.number * 60) 0 else none

end CivilMinute

/-- The minute of the calendar that a point lies in. -/
def Stamp.civil {clock : Clock} (t : Stamp clock) : CivilMinute where
  toDate := Date.ofDayNumber (t.second / 86400)
  hour := (t.secondOfDay / 3600).toNat
  minute := (t.secondOfDay / 60 % 60).toNat

end Crontab
