import Crontab.Phrase

/-! # Languages

A `Language` has the words for everything that a description may say.
`Language.describe` puts a description into them.  Names of weekdays and months come
from tables; a description that asks for a name that the table lacks has no wording.
-/

namespace Crontab

/-- The words of a language. -/
structure Language where
  /-- Every minute. -/
  everyMinute : String
  /-- Every hour. -/
  everyHour : String
  /-- Every so many minutes. -/
  everyMinutes : Nat → String
  /-- Every so many hours. -/
  everyHours : Nat → String
  /-- Every so many days. -/
  everyDays : Nat → String
  /-- Every so many months. -/
  everyMonths : Nat → String
  /-- At the times of the day in a list. -/
  atTimes : String → String
  /-- At a minute of the hour. -/
  atMinute : Nat → String
  /-- At the minutes in a list. -/
  atMinutes : String → String
  /-- At the minutes from one to another. -/
  minuteSpan : Nat → Nat → String
  /-- At the hours in a list. -/
  atHours : String → String
  /-- At the hours from one to another. -/
  hourSpan : String → String → String
  /-- On the days of the month in a list. -/
  onDays : String → String
  /-- On the days of the month from one to another. -/
  daySpan : String → String → String
  /-- On the weekdays in a list. -/
  onWeekdays : String → String
  /-- On the weekdays from one to another. -/
  weekdaySpan : String → String → String
  /-- From Monday to Friday. -/
  workingDays : String
  /-- On Saturday and Sunday. -/
  weekend : String
  /-- In the months in a list. -/
  inMonths : String → String
  /-- In the months from one to another. -/
  monthSpan : String → String → String
  /-- On the days of the month or else on the weekdays. -/
  dayOrWeekday : String → String → String
  /-- The word before the last item of a list. -/
  orWord : String
  /-- The number of a day of the month. -/
  ordinal : Nat → String
  /-- An hour of the day. -/
  hour : Nat → String
  /-- An hour and a minute of the day. -/
  time : Nat → Nat → String
  /-- The weekdays, from Sunday. -/
  weekdayNames : Vector String 7
  /-- The weekdays as days that come back every week, from Sunday. -/
  weekdayPlurals : Vector String 7
  /-- The months, from January. -/
  monthNames : Vector String 12

namespace Language

variable (l : Language)

/-- A list with commas between its items, and a word before the last. -/
def listing : List String → String
  | [] => ""
  | [only] => only
  | [first, second] => first ++ " " ++ l.orWord ++ " " ++ second
  | items =>
    String.intercalate ", " items.dropLast ++ ", " ++ l.orWord ++ " " ++ items.getLastD ""

/-- The words for certain minutes. -/
def minutes : Option Shape → String
  | none => l.everyMinute
  | some (.single minute) => l.atMinute minute
  | some (.every step) => l.everyMinutes step
  | some (.span first last) => l.minuteSpan first last
  | some (.each values) => l.atMinutes (l.listing (values.map toString))

/-- The words for certain hours. -/
def hours : Shape → String
  | .single hour => l.atHours (l.hour hour)
  | .every step => l.everyHours step
  | .span first last => l.hourSpan (l.hour first) (l.hour last)
  | .each values => l.atHours (l.listing (values.map l.hour))

/-- The words for a time of the day. -/
def timePhrase : TimePhrase → String
  | .everyHour => l.everyHour
  | .hoursAlone shape => l.hours shape
  | .times minute values => l.atTimes (l.listing (values.map fun hour => l.time hour minute))
  | .clock shape none => l.minutes shape
  | .clock shape (some shape') => l.minutes shape ++ ", " ++ l.hours shape'

/-- The words for certain days of the month. -/
def days : Shape → String
  | .single day => l.onDays (l.ordinal day)
  | .every step => l.everyDays step
  | .span first last => l.daySpan (l.ordinal first) (l.ordinal last)
  | .each values => l.onDays (l.listing (values.map l.ordinal))

/-- The words for certain weekdays. -/
def weekdays : WeekdayPhrase → Option String
  | .workingDays => some l.workingDays
  | .weekend => some l.weekend
  | .days (.single day) => do return l.onWeekdays (← l.weekdayPlurals[day]?)
  | .days (.span first last) => do
    return l.weekdaySpan (← l.weekdayNames[first]?) (← l.weekdayNames[last]?)
  | .days (.each values) => do
    return l.onWeekdays (l.listing (← values.mapM (l.weekdayPlurals[·]?)))
  | .days (.every _) => none

/-- The words for certain months. -/
def months : Shape → Option String
  | .single month => do return l.inMonths (← l.monthNames[month]?)
  | .every step => some (l.everyMonths step)
  | .span first last => do
    return l.monthSpan (← l.monthNames[first]?) (← l.monthNames[last]?)
  | .each values => do return l.inMonths (l.listing (← values.mapM (l.monthNames[·]?)))

/-- Days of the month and weekdays in one, where there is something to say of them. -/
def eitherDay : Option String → Option String → Option String
  | some day, some weekday => some (l.dayOrWeekday day weekday)
  | some day, none => some day
  | none, weekday => weekday

/-- A description in words: the time, then the days and the months after a comma. -/
def describe (d : Description) : Option String := do
  let weekdays ← d.weekdays.mapM l.weekdays
  let months ← d.months.mapM l.months
  let time := l.timePhrase d.time
  match l.eitherDay (d.days.map l.days) weekdays, months with
  | some days, some months => return time ++ ", " ++ days ++ " " ++ months
  | some part, none => return time ++ ", " ++ part
  | none, some part => return time ++ ", " ++ part
  | none, none => return time

end Language

/-- A schedule in words. -/
def Schedule.describe (s : Schedule) (l : Language) : Option String := l.describe s.description

end Crontab
