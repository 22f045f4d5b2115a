import Crontab.Phrase.Shape
import Crontab.Schedule

/-! # What a description says

A `Description` says in no language yet when a schedule is due: a time of the day, and
the days, weekdays and months that are not left out because the schedule has them all.
`Schedule.description` finds what there is to say.
-/

namespace Crontab

/-- What is said of the time of the day. -/
inductive TimePhrase where
  /-- Every hour, on the hour. -/
  | everyHour
  /-- Certain hours, on the hour. -/
  | hoursAlone (hours : Shape)
  /-- One minute of each of a few hours. -/
  | times (minute : Nat) (hours : List Nat)
  /-- Certain minutes of certain hours, where nothing stands for all of them. -/
  | clock (minutes hours : Option Shape)
  deriving DecidableEq

/-- What is said of the weekdays. -/
inductive WeekdayPhrase where
  /-- Monday to Friday. -/
  | workingDays
  /-- Saturday and Sunday. -/
  | weekend
  /-- Certain weekdays. -/
  | days (days : Shape)
  deriving DecidableEq

/-- What is said of a schedule. -/
structure Description where
  /-- The time of the day. -/
  time : TimePhrase
  /-- The days of the month, unless it is all of them. -/
  days : Option Shape
  /-- The days of the week, unless it is all of them. -/
  weekdays : Option WeekdayPhrase
  /-- The months, unless it is all of them. -/
  months : Option Shape
  deriving DecidableEq

namespace Description

/-- Minutes are described by any step, and by their ends from three on. -/
def minuteStyle : ShapeStyle := ⟨0, 59, 2, 3⟩

/-- Hours are described by their step from four on, and by their ends from three on. -/
def hourStyle : ShapeStyle := ⟨0, 23, 4, 3⟩

/-- Days are described by their step from four on, and by their ends from two on. -/
def dayStyle : ShapeStyle := ⟨1, 31, 4, 2⟩

/-- Months are described by their step from three on, and by their ends from two on. -/
def monthStyle : ShapeStyle := ⟨0, 11, 3, 2⟩

/-- The shape of a set, unless it holds all that it may. -/
def shapeUnlessFull (style : ShapeStyle) (set : FieldSet) : Option Shape :=
  if set.isFull then none else some (Shape.ofValues style set.toList)

/-- What there is to say of the time of the day.  Hours with a step are said alone
when it is their first minute, and up to five hours are said with their one minute. -/
def ofTime (minutes hours : FieldSet) : TimePhrase :=
  let hourList := hours.toList
  let clock := .clock (shapeUnlessFull minuteStyle minutes) (shapeUnlessFull hourStyle hours)
  match minutes.toList with
  | [minute] =>
    if minute = 0 ∧ hours.isFull then .everyHour
    else if minute = 0 ∧ (step? 0 23 hourList).isSome then
      .hoursAlone (Shape.ofValues hourStyle hourList)
    else if 1 ≤ hourList.length ∧ hourList.length ≤ 5 then .times minute hourList
    else clock
  | _ => clock

/-- The shape of certain weekdays. -/
def ofWeekdayList (days : List Nat) : WeekdayPhrase :=
  match days with
  | [day] => .days (.single day)
  | [1, 2, 3, 4, 5] => .workingDays
  | [0, 6] => .weekend
  | _ =>
    match runToSunday? days with
    | some start => .days (.span start 0)
    | none =>
      match days with
      | first :: rest =>
        if isRun days then .days (.span first (rest.getLastD first)) else .days (.each days)
      | [] => .days (.each [])

/-- What there is to say of the weekdays. -/
def ofWeekdays (weekdays : FieldSet) : Option WeekdayPhrase :=
  if weekdays.isFull then none else some (ofWeekdayList weekdays.toList)

end Description

/-- What there is to say of a schedule. -/
def Schedule.description (s : Schedule) : Description where
  time := Description.ofTime s.minutes s.hours
  days := Description.shapeUnlessFull Description.dayStyle s.days
  weekdays := Description.ofWeekdays s.weekdays
  months := Description.shapeUnlessFull Description.monthStyle s.months

end Crontab
