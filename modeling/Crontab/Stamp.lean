import Crontab.Calendar

/-! # Points on a clock

A `Stamp` is a point on one of two clocks: `Instant`s on the clock of universal
time, `WallTime`s on the clock that hangs on a wall somewhere.  Both count seconds
of 86400 a day from 1970-01-01, both hold a part of a second, and both end with
the calendar: a stamp carries the proof that its day is in use.

A part of a second that reaches a whole second or more is a **leap second**: it
comes after every other part of its second and before the second that follows.
Adding a duration stays within a leap second or steps out of it (`Stamp.add?`), and
the time between two stamps counts one that lies between them (`Stamp.since`).
-/

namespace Crontab

/-- A span of time in nanoseconds, negative for one that runs backward. -/
abbrev Duration := Int

namespace Duration

/-- A span of whole seconds. -/
def seconds (n : Int) : Duration := n * 1000000000

/-- A span of whole minutes. -/
def minutes (n : Int) : Duration := seconds (n * 60)

/-- A span of whole hours. -/
def hours (n : Int) : Duration := seconds (n * 3600)

end Duration

/-- The two clocks that a point in time is read from. -/
inductive Clock where
  /-- The clock of universal time. -/
  | utc
  /-- The clock of a zone. -/
  | wall
  deriving DecidableEq

/-- The first second of `firstYear`. -/
def firstSecond : Int := -8334601228800

/-- The last second of `lastYear`. -/
def lastSecond : Int := 8210266876799

example : firstSecond = Date.dayNumber ⟨firstYear, 0, 1⟩ * 86400 := by decide
example : lastSecond + 1 = (Date.dayNumber ⟨lastYear, 11, 31⟩ + 1) * 86400 := by decide

/-- A point on a clock. -/
structure Stamp (clock : Clock) where
  /-- The whole seconds since 1970-01-01T00:00:00. -/
  second : Int
  /-- The nanoseconds since then, `1000000000` or more in a leap second. -/
  nano : Nat
  /-- No point comes before the first day in use. -/
  first_le : firstSecond ≤ second
  /-- No point comes after the last day in use. -/
  le_last : second ≤ lastSecond
  /-- A leap second ends where the second after it would. -/
  nano_lt : nano < 2000000000
  deriving DecidableEq

/-- A point of universal time. -/
abbrev Instant := Stamp .utc

/-- What the clock of a zone shows. -/
abbrev WallTime := Stamp .wall

namespace Stamp

variable {clock : Clock}

/-- The point at a second and a part of it, if there is one. -/
def of? (second : Int) (nano : Nat) : Option (Stamp clock) :=
  if h : (firstSecond ≤ second ∧ second ≤ lastSecond) ∧ nano < 2000000000 then
    some ⟨second, nano, h.1.1, h.1.2, h.2⟩
  else none

/-- The point outside leap seconds that lies a number of nanoseconds after
1970-01-01T00:00:00, if there is one. -/
def ofNanos? (n : Int) : Option (Stamp clock) :=
  of? (n / 1000000000) (n % 1000000000).toNat

/-- The nanoseconds since 1970-01-01T00:00:00. -/
def nanos (t : Stamp clock) : Int := t.second * 1000000000 + t.nano

/-- The point lies in a leap second. -/
def IsLeap (t : Stamp clock) : Prop := 1000000000 ≤ t.nano

instance (t : Stamp clock) : Decidable t.IsLeap :=
  inferInstanceAs (Decidable (_ ≤ _))

/-- The same figures on another clock. -/
def readOn (t : Stamp clock) (other : Clock) : Stamp other :=
  ⟨t.second, t.nano, t.first_le, t.le_last, t.nano_lt⟩

@[simp] theorem second_readOn (t : Stamp clock) (other : Clock) :
    (t.readOn other).second = t.second := rfl

@[simp] theorem nano_readOn (t : Stamp clock) (other : Clock) :
    (t.readOn other).nano = t.nano := rfl

/-! ### Order -/

/-- Points are ordered by their seconds, and within a second by the part of it. -/
instance : LT (Stamp clock) where
  lt a b := a.second < b.second ∨ a.second = b.second ∧ a.nano < b.nano

/-- A point is at most another unless the other comes first. -/
instance : LE (Stamp clock) where
  le a b := ¬ b < a

instance (a b : Stamp clock) : Decidable (a < b) :=
  inferInstanceAs (Decidable (_ ∨ _ ∧ _))

instance (a b : Stamp clock) : Decidable (a ≤ b) :=
  inferInstanceAs (Decidable (¬ _))

instance : Min (Stamp clock) := minOfLe

instance : Max (Stamp clock) := maxOfLe

theorem lt_def {a b : Stamp clock} :
    a < b ↔ a.second < b.second ∨ a.second = b.second ∧ a.nano < b.nano := Iff.rfl

theorem le_def {a b : Stamp clock} : a ≤ b ↔ ¬ b < a := Iff.rfl

/-- Puts a point in its place among others in ascending order. -/
def insert (t : Stamp clock) : List (Stamp clock) → List (Stamp clock)
  | [] => [t]
  | u :: us => if t < u then t :: u :: us else u :: insert t us

/-! ### Arithmetic -/

/-- The point a duration later, if the calendar has it.  A leap second is left only
by a whole second or more backward, or by what carries past its end; on the way
forward it then takes no time of its own. -/
def add? (t : Stamp clock) (d : Duration) : Option (Stamp clock) :=
  if t.IsLeap ∧ -1000000000 < d then
    if t.nano + d < 2000000000 then of? t.second (t.nano + d).toNat
    else ofNanos? (t.nanos + d - 1000000000)
  else ofNanos? (t.nanos + d)

/-- The seconds since midnight. -/
def secondOfDay (t : Stamp clock) : Int := t.second % 86400

/-- The duration from one point to another.  A leap second of the earlier time of
day counts as the second that it adds to that day. -/
def since (t start : Stamp clock) : Duration :=
  let leap : Int :=
    if start.IsLeap ∧ start.secondOfDay < t.secondOfDay then 1
    else if t.IsLeap ∧ t.secondOfDay < start.secondOfDay then -1
    else 0
  t.nanos - start.nanos + Duration.seconds leap

/-- The start of the minute that a point lies in. -/
def startOfMinute (t : Stamp clock) : Stamp clock where
  second := t.second - t.second % 60
  nano := 0
  first_le := by have := t.first_le; unfold firstSecond at *; omega
  le_last := by have := t.le_last; omega
  nano_lt := by decide

end Stamp

end Crontab
