import Crontab.Direction
import Crontab.Schedule

/-! # Seeking a minute that a schedule admits

`Schedule.seek` goes through the calendar from a minute, that minute included, to
the nearest one in its direction that the schedule admits.  It looks at the
coarsest field that stands in the way (month, day, hour, then minute) and takes it
straight to the next number that the schedule allows (`Schedule.correct?`), starting
the finer fields over.  A day that has no more to offer is left for the next
(`Schedule.leaveDay`), and a month for the next that has a day to offer
(`Schedule.enterMonth`).

The corrections of a seek and the months of a hop are counted.  The longest wait for
a date of the calendar, from one 29 February over a common century to the next, is
eight years.
-/

namespace Crontab.Schedule

variable (s : Schedule) (direction : Direction)

/-- The corrections that a search may make. -/
def maxCorrections : Nat := 1000

/-- The months that a search may look at before it finds one with a day to offer. -/
def maxMonths : Nat := 108

/-- The first day to look at in a month that has just been entered, if the month has it. -/
def landingDay? (year : Int) (month : Nat) : Option Nat :=
  let length := monthLength year month
  match direction, s.eitherDay with
  | .forward, true => some 1
  | .forward, false => s.days.first?.filter (· ≤ length)
  | .backward, true => some length
  | .backward, false => s.days.prev? length

/-- The nearest month beyond a month that the schedule allows. -/
def monthBeyond (year : Int) (month : Nat) : Int × Nat :=
  match direction.find? s.months (month + direction.sign) with
  | some month => (year, month)
  | none => (year + direction.sign, direction.start s.months)

/-- A day at the time at which it is entered. -/
def enterDay (date : Date) : CivilMinute where
  toDate := date
  hour := direction.start s.hours
  minute := direction.start s.minutes

/-- The nearest month beyond a month with a day to look at, after at most `hops`
months that the schedule allows. -/
def enterMonth : (hops : Nat) → (year : Int) → (month : Nat) → Except SearchError CivilMinute
  | 0, _, _ => .error .stepsExhausted
  | hops + 1, year, month =>
    let (year, month) := s.monthBeyond direction year month
    match s.landingDay? direction year month with
    | some day => .ok (s.enterDay direction ⟨year, month, day⟩)
    | none => enterMonth hops year month

/-- Leaves a month. -/
def leaveMonth (c : CivilMinute) : Except SearchError CivilMinute :=
  s.enterMonth direction maxMonths c.year c.month

/-- Leaves a day.  Where either the day or the weekday suffices, every day of the
month has to be looked at. -/
def leaveDay (c : CivilMinute) : Except SearchError CivilMinute :=
  let target := c.day + direction.sign
  let candidate :=
    if s.eitherDay then (if 1 ≤ target then some target.toNat else none)
    else direction.find? s.days target
  match candidate with
  | some day =>
    if day ≤ monthLength c.year c.month then .ok (s.enterDay direction ⟨c.year, c.month, day⟩)
    else s.leaveMonth direction c
  | none => s.leaveMonth direction c

/-- Moves the hour to an allowed one from `target` on, or leaves the day. -/
def moveHour (c : CivilMinute) (target : Int) : Except SearchError CivilMinute :=
  match direction.find? s.hours target with
  | some hour => .ok { c with hour, minute := direction.start s.minutes }
  | none => s.leaveDay direction c

/-- Moves the minute to an allowed one, or leaves the hour. -/
def moveMinute (c : CivilMinute) : Except SearchError CivilMinute :=
  match direction.find? s.minutes c.minute with
  | some minute => .ok { c with minute }
  | none => s.moveHour direction c (c.hour + direction.sign)

/-- The correction of the coarsest field that stands in the way, or `none` where none
does.  A minute of a date that is not in use ends the search. -/
def correct? (c : CivilMinute) : Except SearchError (Option CivilMinute) :=
  if c.month ∉ s.months then (s.leaveMonth direction c).map some
  else if ¬ c.toDate.InUse then .error .outOfCalendar
  else if !s.admitsDay c.day c.toDate.weekday (monthLength c.year c.month) then
    (s.leaveDay direction c).map some
  else if c.hour ∉ s.hours then (s.moveHour direction c c.hour).map some
  else if c.minute ∉ s.minutes then (s.moveMinute direction c).map some
  else .ok none

/-- The minute that is reached once no field stands in the way, looking at no more
than `corrections` minutes. -/
def seek : (corrections : Nat) → CivilMinute → Except SearchError CivilMinute
  | 0, _ => .error .stepsExhausted
  | corrections + 1, c =>
    match s.correct? direction c with
    | .error e => .error e
    | .ok none => .ok c
    | .ok (some next) => seek corrections next

end Crontab.Schedule
