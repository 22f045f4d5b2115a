import Crontab.Zone

/-! # The instants that show a wall time

The wall clock of a zone shows most times once.  When it is put back it shows some
twice, a **fold**; when it is put forward it passes over some, a **gap**.
`Zone.showing` finds the instants that show a wall time, ascending.

It starts by reading the wall time as universal time, and corrects that guess by as
much as the clock is off there (`Zone.settle`).  The guess settles on an instant that
shows the time unless the time lies in a gap; then the time an hour later on the wall
clock is looked for instead.  The other instant of a fold has the offset in force half
a day before or after (`Zone.addTwin`).

`Zone.rewind` is the instant in a fold from which on the clock has been put back.
-/

namespace Crontab

namespace Zone

variable (z : Zone)

/-- Where guessing has led to. -/
inductive Guess where
  /-- An instant that shows the time. -/
  | exact (t : Instant)
  /-- The guess at which the clock was least off, where it always was. -/
  | nearest (t : Instant)
  deriving DecidableEq

/-- The better of the best guess so far and another, at which the clock is off by
`miss` nanoseconds.  Of two equally good guesses the later is better. -/
def closer (best : Option (Nat × Instant)) (miss : Nat) (guess : Instant) : Nat × Instant :=
  match best with
  | none => (miss, guess)
  | some (least, kept) =>
    if miss < least ∨ miss = least ∧ kept < guess then (miss, guess) else (least, kept)

/-- Corrects a guess until the clock shows `target` there, in at most `rounds` rounds. -/
def settleFrom (target : WallTime) :
    (rounds : Nat) → (guess : Instant) → (best : Option (Nat × Instant)) →
      Except SearchError Guess
  | 0, _, none => .error .outOfCalendar
  | 0, _, some (_, kept) => .ok (.nearest kept)
  | rounds + 1, guess, best => do
    let off := target.since (← z.read guess)
    if off = 0 then return .exact guess
    else
      let next ← orOutOfCalendar (guess.add? off)
      settleFrom target rounds next (some (closer best off.natAbs guess))

/-- The rounds of guessing after which a time is taken to lie in a gap. -/
def maxRounds : Nat := 3

/-- Looks for an instant that shows `target`. -/
def settle (target : WallTime) : Except SearchError Guess :=
  z.settleFrom target maxRounds (target.readOn .utc) none

/-- Adds the instant that would show `target` under the offset in force at `probe`, if
it does show it and is not among the instants found before. -/
def addTwin (target : WallTime) (probe : Option Instant) (found : List Instant) :
    Except SearchError (List Instant) :=
  let twin := probe.bind fun t =>
    (target.readOn .utc).add? (Duration.seconds (-z.offsetAt t.second))
  match twin with
  | none => .ok found
  | some twin => do
    let shown ← z.read twin
    return if shown = target ∧ twin ∉ found then twin.insert found else found

/-- The instants that show `target`, ascending.  For a time in a gap it is the one
instant that shows the time an hour later, or if there is none the nearest guess. -/
def showing (target : WallTime) : Except SearchError (List Instant) := do
  match ← z.settle target with
  | .exact t =>
    let found ← z.addTwin target (t.add? (Duration.hours (-12))) [t]
    z.addTwin target (t.add? (Duration.hours 12)) found
  | .nearest kept =>
    let later ← orOutOfCalendar (target.add? (Duration.hours 1))
    match ← z.settle later with
    | .exact t => return [t]
    | .nearest _ => return [kept]

/-- The first of the instants that show `target`. -/
def firstShowing (target : WallTime) : Except SearchError Instant := do
  orOutOfCalendar (← z.showing target).head?

/-! ### Where a fold turns -/

/-- How far the clock runs ahead of universal time at an instant. -/
def lead (t : Instant) : Except SearchError Duration := do
  return ((← z.read t).readOn .utc).since t

/-- Halves the time between two instants until it is no more than a second, keeping
the clock ahead by `target` at the later one. -/
def halve (target : Duration) : (halvings : Nat) → (low high : Instant) →
    Except SearchError Instant
  | 0, _, high => .ok high
  | halvings + 1, low, high =>
    if Duration.seconds 1 < high.since low then do
      let middle ← orOutOfCalendar (low.add? (high.since low / 2))
      if (← z.lead middle) = target then halve target halvings low middle
      else halve target halvings middle high
    else .ok high

/-- The instant from which on the clock has been put back, between two instants that
show the same time.  Every halving takes off a binary digit of the time between them. -/
def rewind (earlier later : Instant) : Except SearchError Instant := do
  let target ← z.lead later
  z.halve target (Nat.log2 (later.since earlier).toNat + 1) earlier later

end Zone

end Crontab
