import Crontab.Error
import Crontab.Stamp

/-! # Zones

A zone is a function from the second of an instant to an offset in seconds: the wall
clock runs that much ahead of universal time.  The offset changes at transitions, and
between them it stands still.  `Zone.read` is what the wall clock shows at an instant.
-/

namespace Crontab

/-- A second from which on the wall clock runs ahead by a new offset. -/
structure Transition where
  /-- The first second with the new offset. -/
  second : Int
  /-- The offset, in seconds ahead of universal time. -/
  offset : Int
  deriving DecidableEq

/-- A named region in which the clocks are set alike. -/
structure Zone where
  /-- The name of the zone. -/
  name : String
  /-- The offset before the first transition. -/
  initial : Int
  /-- The transitions, ascending. -/
  transitions : List Transition
  deriving DecidableEq

namespace Zone

/-- The offset in force from the last of some transitions up to a second, or else an
offset that held before. -/
def offsetFrom (second : Int) : (held : Int) → List Transition → Int
  | held, [] => held
  | held, t :: ts => offsetFrom second (if t.second ≤ second then t.offset else held) ts

/-- The offset in force at a second. -/
def offsetAt (z : Zone) (second : Int) : Int := offsetFrom second z.initial z.transitions

/-- What the wall clock shows at an instant, unless the offset takes it out of the
years in use. -/
def read? (z : Zone) (t : Instant) : Option WallTime :=
  Stamp.of? (t.second + z.offsetAt t.second) t.nano

/-- What the wall clock shows at an instant. -/
def read (z : Zone) (t : Instant) : Except SearchError WallTime :=
  match z.read? t with
  | some shown => .ok shown
  | none => .error .noReading

end Zone

end Crontab
