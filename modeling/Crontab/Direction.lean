import Crontab.Field.Set

/-! # Directions in time

A search goes forward or backward.  The direction tells which neighbour of a number a
field is taken to (`Direction.find?`), and where a field starts over once a coarser one
has moved (`Direction.start`).
-/

namespace Crontab

/-- A way to go through time. -/
inductive Direction where
  /-- Toward later times. -/
  | forward
  /-- Toward earlier times. -/
  | backward
  deriving DecidableEq

namespace Direction

/-- One step in the direction. -/
def sign : Direction → Int
  | forward => 1
  | backward => -1

/-- The name of the direction. -/
def name : Direction → String
  | forward => "Forward"
  | backward => "Backward"

/-- The member nearest to `target`, itself included, that a search meets from there. -/
def find? : Direction → FieldSet → Int → Option Nat
  | forward => FieldSet.next?
  | backward => FieldSet.prev?

/-- The member that a search meets first, or the lower bound of a set without members. -/
def start : Direction → FieldSet → Nat
  | forward, set => set.first?.getD set.least
  | backward, set => set.last?.getD set.least

end Direction

end Crontab
