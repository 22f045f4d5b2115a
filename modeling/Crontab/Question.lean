import Crontab.Runs
import Crontab.Zone.Table

/-! # Questions about runs

The questions that come as text: an expression, and `Settings` that may name a zone
and an instant to count from.  Without a zone the clock is that of universal time, and
without an instant the time is counted from `now`.  The expression is read first, then
the zone is looked up, then the search begins; the first of them that fails is the
answer.
-/

namespace Crontab

/-- What a question leaves open unless it is set. -/
structure Settings where
  /-- The name of the zone on whose clock an expression is read. -/
  zone? : Option String := none
  /-- The instant from which time is counted. -/
  origin? : Option Instant := none
  deriving DecidableEq

namespace Settings

/-- The same settings with another zone. -/
def withZone (settings : Settings) (name : String) : Settings :=
  { settings with zone? := some name }

/-- The same settings with another instant to count from. -/
def withOrigin (settings : Settings) (origin : Instant) : Settings :=
  { settings with origin? := some origin }

/-- The instant from which time is counted. -/
def origin (settings : Settings) (now : Instant) : Instant := settings.origin?.getD now

end Settings

namespace Schedule

/-- The schedule that an expression describes. -/
def ofText (expression : String) : Except Failure Schedule :=
  (parse expression).mapError .expression

/-- The nearest occurrence past an instant on the clock of a named zone. -/
def occurrenceIn (s : Schedule) (zone? : Option String) (direction : Direction)
    (origin : Instant) : Except Failure Instant := do
  let z ← Zone.ofName? zone?
  (s.occurrence z direction origin).mapError .search

/-- The clock of a named zone shows a minute that the schedule admits. -/
def isDueIn (s : Schedule) (zone? : Option String) (t : Instant) : Except Failure Bool := do
  let z ← Zone.ofName? zone?
  (s.isDue z t).mapError .search

/-- The occurrences past an instant on the clock of a named zone. -/
def runsIn (s : Schedule) (zone? : Option String) (direction : Direction) (origin : Instant) :
    Except Failure Runs := do
  let z ← Zone.ofName? zone?
  return Runs.past s z direction origin

end Schedule

variable (expression : String) (settings : Settings) (now : Instant)

/-- The nearest occurrence of an expression. -/
def nearestRun (direction : Direction) : Except Failure Instant := do
  let s ← Schedule.ofText expression
  s.occurrenceIn settings.zone? direction (settings.origin now)

/-- The first occurrence of an expression after the instant to count from. -/
def nextRun : Except Failure Instant := nearestRun expression settings now .forward

/-- The last occurrence of an expression before the instant to count from. -/
def previousRun : Except Failure Instant := nearestRun expression settings now .backward

/-- The next occurrences of an expression, up to a number.  An expression that is
refused and a zone that nobody knows have none. -/
def nextRuns (count : Nat) : Except SearchError (List Instant) :=
  let runs := do
    let s ← Schedule.ofText expression
    s.runsIn settings.zone? .forward (settings.origin now)
  match runs with
  | .ok runs => (runs.take count).1
  | .error _ => .ok []

/-- An expression admits what the clock shows at an instant. -/
def isDueAt (t : Instant) : Except Failure Bool := do
  let s ← Schedule.ofText expression
  s.isDueIn settings.zone? t

end Crontab
