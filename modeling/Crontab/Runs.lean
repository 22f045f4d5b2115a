import Crontab.Schedule.Occurrence

/-! # Runs

`Runs` are the occurrences of a schedule past an instant, one after another in one
direction.  Taking the next run moves them on to it.  They end with the first
search that has no answer, and once ended they stay so.  Only a search that comes to
an instant without a reading is reported to the caller, and it leaves the runs as they
are.
-/

namespace Crontab

/-- The occurrences of a schedule that are still to come. -/
structure Runs where
  /-- The schedule. -/
  schedule : Schedule
  /-- The zone on whose clock the schedule is read. -/
  zone : Zone
  /-- The direction in which the occurrences come. -/
  direction : Direction
  /-- The last occurrence, or the instant from which they are counted. -/
  current : Instant
  /-- There are no more. -/
  ended : Bool
  deriving DecidableEq

namespace Runs

/-- The occurrences past an instant. -/
def past (schedule : Schedule) (zone : Zone) (direction : Direction) (origin : Instant) : Runs where
  schedule := schedule
  zone := zone
  direction := direction
  current := origin
  ended := false

/-- The next occurrence, if there is one, and those after it. -/
def next (r : Runs) : Except SearchError (Option Instant) × Runs :=
  if r.ended then (.ok none, r)
  else
    match r.schedule.occurrence r.zone r.direction r.current with
    | .ok t => (.ok (some t), { r with current := t })
    | .error .noReading => (.error .noReading, r)
    | .error _ => (.ok none, { r with ended := true })

/-- As many of the next occurrences as there are, up to a number, and those after them. -/
def take : Nat → Runs → Except SearchError (List Instant) × Runs
  | 0, r => (.ok [], r)
  | n + 1, r =>
    match r.next with
    | (.error e, r) => (.error e, r)
    | (.ok none, r) => (.ok [], r)
    | (.ok (some t), r) =>
      match take n r with
      | (.ok ts, r) => (.ok (t :: ts), r)
      | (.error e, r) => (.error e, r)

/-- The occurrence that comes after as many others, if there is one, and those after
it. -/
def nth : Nat → Runs → Except SearchError (Option Instant) × Runs
  | 0, r => r.next
  | n + 1, r =>
    match r.next with
    | (.ok (some _), r) => nth n r
    | answer => answer

end Runs

end Crontab
