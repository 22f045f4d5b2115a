/-! # The fields of an expression

An expression has five fields.  Each holds numbers between two bounds, as they are
written: months from `1`, and weekdays from `0` to `7`, where both ends are Sunday.
The months and the weekdays also go by three-letter names.
-/

namespace Crontab

/-- A place in an expression. -/
inductive Field where
  /-- The minute of the hour. -/
  | minute
  /-- The hour of the day. -/
  | hour
  /-- The day of the month. -/
  | day
  /-- The month of the year. -/
  | month
  /-- The day of the week. -/
  | weekday
  deriving DecidableEq

namespace Field

/-- The five fields in the order in which they are written. -/
def all : List Field := [minute, hour, day, month, weekday]

/-- The place of a field, from `0`. -/
def index : Field → Nat
  | minute => 0
  | hour => 1
  | day => 2
  | month => 3
  | weekday => 4

/-- What a field is called in a message. -/
def name : Field → String
  | minute => "minute"
  | hour => "hour"
  | day => "day"
  | month => "month"
  | weekday => "weekday"

/-- The least number that may be written. -/
def least : Field → Nat
  | minute | hour | weekday => 0
  | day | month => 1

/-- The greatest number that may be written. -/
def greatest : Field → Nat
  | minute => 59
  | hour => 23
  | day => 31
  | month => 12
  | weekday => 7

/-- The names that may stand for numbers, in lower case and from the number `firstNamed` on. -/
def names : Field → List (List Char)
  | month =>
    [['j', 'a', 'n'], ['f', 'e', 'b'], ['m', 'a', 'r'], ['a', 'p', 'r'],
     ['m', 'a', 'y'], ['j', 'u', 'n'], ['j', 'u', 'l'], ['a', 'u', 'g'],
     ['s', 'e', 'p'], ['o', 'c', 't'], ['n', 'o', 'v'], ['d', 'e', 'c']]
  | weekday =>
    [['s', 'u', 'n'], ['m', 'o', 'n'], ['t', 'u', 'e'], ['w', 'e', 'd'],
     ['t', 'h', 'u'], ['f', 'r', 'i'], ['s', 'a', 't']]
  | minute | hour | day => []

/-- The number that the first of the names stands for. -/
def firstNamed : Field → Nat
  | month => 1
  | minute | hour | day | weekday => 0

/-- The number that a name stands for, whatever the case of its ASCII letters. -/
def named? (f : Field) (text : List Char) : Option Nat :=
  (f.names.findIdx? (· == text.map Char.toLower)).map (· + f.firstNamed)

example : month.named? ['F', 'e', 'b'] = some 2 := by decide
example : weekday.named? ['s', 'a', 't'] = some 6 := by decide
example : day.named? ['s', 'a', 't'] = none := by decide

/-- Both bounds leave room in a set of 64 bits. -/
theorem greatest_lt (f : Field) : f.greatest < 64 := by cases f <;> decide

theorem least_le_greatest (f : Field) : f.least ≤ f.greatest := by cases f <;> decide

end Field

end Crontab
