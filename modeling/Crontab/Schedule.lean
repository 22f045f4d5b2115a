import Crontab.CivilMinute
import Crontab.Field.Term
import Crontab.Text.Blank

/-! # Schedules

A schedule is an expression of five fields, read (`Schedule.parse`).  It keeps the
set of each field, months from `0` and weekdays from `0` for Sunday to `6`, and
whether the day and the weekday field are written as a bare star.  The latter settles
how the two are combined: a field that is a bare star has no say, and of two
that both have a say one suffices (`Schedule.admitsDay`).
-/

namespace Crontab

/-- An expression and what it allows. -/
structure Schedule where
  /-- The expression, without blanks at its ends. -/
  text : String
  /-- The minutes of the hour. -/
  minutes : FieldSet
  /-- The hours of the day. -/
  hours : FieldSet
  /-- The days of the month. -/
  days : FieldSet
  /-- The months, `0` for January. -/
  months : FieldSet
  /-- The days of the week, `0` for Sunday. -/
  weekdays : FieldSet
  /-- The day field is a bare star. -/
  anyDay : Bool
  /-- The weekday field is a bare star. -/
  anyWeekday : Bool
  deriving DecidableEq

/-- A schedule is shown, and stored, as its expression. -/
instance : ToString Schedule := ⟨Schedule.text⟩

namespace Schedule

/-! ### What a schedule admits -/

/-- Both the day and the weekday field have a say, and either suffices. -/
def eitherDay (s : Schedule) : Bool := !s.anyDay && !s.anyWeekday

/-- The day and weekday fields admit a day, in a month of the given length if one is
given. -/
def admitsDay (s : Schedule) (day weekday : Nat) (length : Option Nat) : Bool :=
  let byDay := decide (day ∈ s.days) && length.all (day ≤ ·)
  let byWeekday := decide (weekday ∈ s.weekdays)
  match s.anyDay, s.anyWeekday with
  | false, false => byDay || byWeekday
  | false, true => byDay
  | true, false => byWeekday
  | true, true => true

/-- The schedule admits a minute of the calendar. -/
def admits (s : Schedule) (c : CivilMinute) : Bool :=
  decide (c.minute ∈ s.minutes) && decide (c.hour ∈ s.hours) && decide (c.month ∈ s.months) &&
    s.admitsDay c.day c.toDate.weekday none

/-- The schedule admits the minute that a wall time lies in. -/
def admitsWall (s : Schedule) (t : WallTime) : Bool := s.admits t.civil

/-! ### Reading an expression -/

/-- The set of a weekday field, with `0` alone for Sunday. -/
def foldSunday (set : FieldSet) : Except FieldError FieldSet :=
  if 7 ∈ set then do
    let set ← set.erase? 7
    let set ← set.insert? 0
    return set.withGreatest 6
  else .ok (set.withGreatest 6)

/-- Some year has one of the days in one of the months.  It is enough to look at
the earliest of the days, and there is nothing to look at where all days or all months
are allowed. -/
def isFeasible (days months : FieldSet) : Bool :=
  days.size == 31 || months.size == 12 ||
    months.toList.any fun month => days.first?.any (· ≤ longestMonth month)

/-- Reads the set of a field. -/
def readField (f : Field) (text : List Char) : Except ExpressionError FieldSet :=
  (FieldSet.read f text).mapError .field

/-- The schedule of an expression whose fields are given one by one. -/
def ofFields (text : String) (minute hour day month weekday : List Char) :
    Except ExpressionError Schedule := do
  let minutes ← readField .minute minute
  let hours ← readField .hour hour
  let days ← readField .day day
  let months := (← readField .month month).shiftDown 1
  let weekdays ← (foldSunday (← readField .weekday weekday)).mapError .field
  if isFeasible days months then
    return { text, minutes, hours, days, months, weekdays,
             anyDay := day = ['*'], anyWeekday := weekday = ['*'] }
  else
    throw (.neverADate days.toList (months.toList.map (· + 1)))

/-- The schedule that an expression describes. -/
def parse (expression : String) : Except ExpressionError Schedule :=
  let text := trim expression.toList
  if text = [] then .error .empty
  else
    match words text with
    | [minute, hour, day, month, weekday] =>
      ofFields (String.ofList text) minute hour day month weekday
    | fields => .error (.fieldCount fields.length)

/-- The text describes a schedule. -/
def isValid (expression : String) : Bool := (parse expression).isOk

end Schedule

end Crontab
