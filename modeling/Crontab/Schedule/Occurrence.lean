import Crontab.Schedule.Seek
import Crontab.Zone.Showing

/-! # Occurrences of a schedule in a zone

A schedule says what the wall clock shows when it is due.  `Schedule.occurrence` finds
the nearest instant after or before another at which that is so: it reads the
wall clock, seeks the next minute on it that the schedule admits, and takes the
instant that shows that minute (`Schedule.firstPast`).

In a fold the wall clock goes through the same times twice, so the nearest minute on
the clock need not be the nearest instant.  A search that sets out from a time in a
fold also sets out from where the other pass begins (`Zone.otherPass?`), and the
nearer of the two instants is the answer.
-/

namespace Crontab

namespace Direction

/-- The first of some ascending instants that a search past `origin` meets. -/
def pick (origin : Instant) : Direction → List Instant → Option Instant
  | forward, ts => ts.find? (origin < ·)
  | backward, ts => ts.reverse.find? (· < origin)

/-- The instant that a search meets first. -/
def nearer : Direction → Instant → Instant → Instant
  | forward => min
  | backward => max

/-- A minute in the direction. -/
def minute (direction : Direction) : Duration := Duration.minutes direction.sign

end Direction

/-- The wall time from which a search sets out once more when it sets out from a fold,
at `origin` where the clock shows the minute `shown`: forward from the first pass it is
the time to which the clock is put back, and backward from the second pass the last
minute before that. -/
def Zone.otherPass? (z : Zone) (direction : Direction) (origin : Instant) (shown : WallTime) :
    Except SearchError (Option WallTime) := do
  match ← z.showing shown with
  | [earlier, later] =>
    let turn ← z.rewind earlier later
    let restart : Option Instant :=
      match direction with
      | .forward => if origin < later then some turn else none
      | .backward => if origin < later then none else turn.add? (Duration.minutes (-1))
    match restart with
    | some t => return some (← z.read t)
    | none => return none
  | _ => return none

namespace Schedule

variable (s : Schedule) (z : Zone) (direction : Direction)

/-- The minutes that a search may find on the wall clock, up to one with an instant past
the origin. -/
def maxAttempts : Nat := 3

/-- The first instant past `origin` that stands for a minute the schedule admits, seeking
on the wall clock from `start`. -/
def firstPast (origin : Instant) : (attempts : Nat) → (start : WallTime) →
    Except SearchError Instant
  | 0, _ => .error .stepsExhausted
  | attempts + 1, start => do
    let minute ← s.seek direction maxCorrections start.civil
    let found ← orOutOfCalendar minute.toWall?
    match direction.pick origin (← z.showing found) with
    | some t => return t
    | none => firstPast origin attempts (← orOutOfCalendar (found.add? direction.minute))

/-- The nearest occurrence past an instant. -/
def occurrence (origin : Instant) : Except SearchError Instant := do
  let shown := (← z.read origin).startOfMinute
  let start ← orOutOfCalendar (shown.add? direction.minute)
  let found ← s.firstPast z direction origin maxAttempts start
  match ← z.otherPass? direction origin shown with
  | none => return found
  | some restart =>
    return direction.nearer found (← s.firstPast z direction origin maxAttempts restart)

/-- The first occurrence after an instant. -/
def next (origin : Instant) : Except SearchError Instant := s.occurrence z .forward origin

/-- The last occurrence before the minute that an instant lies in. -/
def previous (origin : Instant) : Except SearchError Instant := s.occurrence z .backward origin

/-- The clock shows a minute that the schedule admits. -/
def isDue (t : Instant) : Except SearchError Bool := do return s.admitsWall (← z.read t)

end Schedule

end Crontab
