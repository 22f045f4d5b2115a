/-! # The shapes of lists of numbers

A list of numbers reads better as a whole when it has a shape: every so many from one
bound to the other (`step?`), one after another (`isRun`), or the last days of a week
that ends on Sunday (`runToSunday?`).  `Shape.ofValues` picks the shape that a
list is described by.
-/

namespace Crontab

/-- Each number is `step` more than the one before. -/
def risesBy (step : Nat) : List Nat → Bool
  | a :: b :: rest => b == a + step && risesBy step (b :: rest)
  | _ => true

/-- The step of numbers that start at `least` and go on by the same step for as long as
`greatest` allows. -/
def step? (least greatest : Nat) : List Nat → Option Nat
  | first :: second :: rest =>
    let values := first :: second :: rest
    let step := second - first
    if 0 < step ∧ first = least ∧ risesBy step values ∧
        values.getLast? = some (least + (greatest - least) / step * step) then some step
    else none
  | _ => none

/-- Two or more numbers, each one more than the one before. -/
def isRun (values : List Nat) : Bool := 2 ≤ values.length && risesBy 1 values

/-- A number put in front of the first that is not less. -/
def insertAscending (n : Nat) : List Nat → List Nat
  | [] => [n]
  | m :: rest => if n ≤ m then n :: m :: rest else m :: insertAscending n rest

/-- The numbers of a list in ascending order. -/
def ascending (ns : List Nat) : List Nat := ns.foldr insertAscending []

/-- The first of three or more weekdays that end on Sunday, which is written `0`.  Days
that start on Monday are no such run, and days may be repeated. -/
def runToSunday? (days : List Nat) : Option Nat :=
  if days.length < 3 ∨ 0 ∉ days then none
  else do
    let rest := (ascending (days.filter (· ≠ 0))).eraseReps
    let start ← rest.head?
    if start ≤ 1 then none
    else if rest = List.range' start (7 - start) then some start
    else none

/-- How a list of numbers is described. -/
inductive Shape where
  /-- One number. -/
  | single (value : Nat)
  /-- Every so many numbers, from one bound to the other. -/
  | every (step : Nat)
  /-- The numbers from one to another. -/
  | span (first last : Nat)
  /-- One number after the other. -/
  | each (values : List Nat)
  deriving DecidableEq

/-- Which lists are long enough for a shape. -/
structure ShapeStyle where
  /-- The least number that a step may start from. -/
  least : Nat
  /-- The greatest number that a step may reach. -/
  greatest : Nat
  /-- The fewest numbers described by their step. -/
  fewestSteps : Nat
  /-- The fewest numbers described by their ends. -/
  shortestSpan : Nat

/-- The shape that a list is described by. -/
def Shape.ofValues (style : ShapeStyle) (values : List Nat) : Shape :=
  match values with
  | [value] => single value
  | [] => each []
  | first :: rest =>
    let last := rest.getLastD first
    match (step? style.least style.greatest values).filter
        fun _ => style.fewestSteps ≤ values.length with
    | some step => every step
    | none =>
      if style.shortestSpan ≤ values.length ∧ isRun values then span first last
      else each values

example : step? 0 59 [0, 15, 30, 45] = some 15 := by decide
example : step? 0 59 [0, 15, 30] = none := by decide
example : isRun [5, 6, 7] = true := by decide
example : runToSunday? [0, 6, 5, 6] = some 5 := by decide
example : runToSunday? [0, 1, 2, 3, 4, 5, 6] = none := by decide

end Crontab
