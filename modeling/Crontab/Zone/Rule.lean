import Crontab.Zone

/-! # Yearly rules

Most transitions follow a rule: on a certain Sunday of a month, year after year, at a
certain time on the wall clock.  `YearlyRule.transitions` works the rule out, and
`Zone.build` merges what rules yield with transitions given one by one.
-/

namespace Crontab

/-- Which of the Sundays of a month. -/
inductive SundayOf where
  /-- The Sunday with the given number, `1` for the first. -/
  | nth (n : Nat)
  /-- The last Sunday. -/
  | last
  deriving DecidableEq

/-- The day of the month on which the Sunday falls. -/
def SundayOf.day (year : Int) (month : Nat) : SundayOf → Nat
  | nth n => 1 + (7 - Date.weekday ⟨year, month, 1⟩) % 7 + 7 * (n - 1)
  | last =>
    let length := monthLength year month
    length - Date.weekday ⟨year, month, length⟩

/-- A transition that comes back every year. -/
structure YearlyRule where
  /-- The first year of the rule. -/
  firstYear : Nat
  /-- The last year of the rule. -/
  lastYear : Nat
  /-- The month, `0` for January. -/
  month : Nat
  /-- The Sunday of the month. -/
  sunday : SundayOf
  /-- The seconds since midnight on the clock that runs until then. -/
  time : Nat
  /-- The offset until then. -/
  offsetBefore : Int
  /-- The offset from then on. -/
  offsetAfter : Int

namespace YearlyRule

/-- The transition in one of the years. -/
def transition (r : YearlyRule) (year : Nat) : Transition where
  second := Date.dayNumber ⟨year, r.month, r.sunday.day year r.month⟩ * 86400 + r.time -
    r.offsetBefore
  offset := r.offsetAfter

/-- The transitions in all of the years. -/
def transitions (r : YearlyRule) : List Transition :=
  (List.range' r.firstYear (r.lastYear + 1 - r.firstYear)).map r.transition

end YearlyRule

/-- Puts a transition in front of the first that does not come before it. -/
def Transition.insert (t : Transition) : List Transition → List Transition
  | [] => [t]
  | u :: us => if t.second ≤ u.second then t :: u :: us else u :: insert t us

/-- The zone with the given transitions, as pairs of a second and an offset, and those
of the given rules. -/
def Zone.build (name : String) (initial : Int) (single : List (Int × Int))
    (rules : List YearlyRule) : Zone where
  name := name
  initial := initial
  transitions :=
    (single.map (fun (second, offset) => Transition.mk second offset) ++
      rules.flatMap YearlyRule.transitions).foldr Transition.insert []

example : SundayOf.day 2026 2 (.nth 2) = 8 := by decide
example : SundayOf.day 2026 9 .last = 25 := by decide

end Crontab
