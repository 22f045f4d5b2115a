/-! # Integers in decimal

`readInteger?` reads an integer of 32 bits: an optional sign and one or more of the
ten ASCII digits, with nothing before, between or after them.  Zeros may lead.
`addInteger?` adds two of them.
-/

namespace Crontab

/-- The value of an ASCII digit. -/
def digitValue? (c : Char) : Option Nat :=
  if '0' ≤ c ∧ c ≤ '9' then some (c.toNat - 48) else none

/-- The number that the digits continue, read from the left. -/
def readDigits? : (sofar : Nat) → List Char → Option Nat
  | sofar, [] => some sofar
  | sofar, c :: rest => (digitValue? c).bind fun d => readDigits? (10 * sofar + d) rest

/-- The number written by one or more digits. -/
def readNatural? : List Char → Option Nat
  | [] => none
  | digits => readDigits? 0 digits

/-- The integer written by a text, if it lies from `-2147483648` to `2147483647`. -/
def readInteger? (text : List Char) : Option Int :=
  let signed : Option Int :=
    match text with
    | '-' :: digits => (readNatural? digits).map fun n => -(n : Int)
    | '+' :: digits => (readNatural? digits).map fun n => (n : Int)
    | digits => (readNatural? digits).map fun n => (n : Int)
  signed.filter fun n => -2147483648 ≤ n ∧ n ≤ 2147483647

/-- The sum of two integers, if it lies from `-2147483648` to `2147483647` as well. -/
def addInteger? (a b : Int) : Option Int :=
  if -2147483648 ≤ a + b ∧ a + b ≤ 2147483647 then some (a + b) else none

theorem addInteger?_eq_some {a b c : Int} :
    addInteger? a b = some c ↔ (-2147483648 ≤ c ∧ c ≤ 2147483647) ∧ a + b = c := by
  unfold addInteger?
  split <;> grind

example : readInteger? ['+', '0', '7'] = some 7 := by decide
example : readInteger? ['-', '2', '1', '4', '7', '4', '8', '3', '6', '4', '8']
    = some (-2147483648) := by decide
example : readInteger? ['2', '1', '4', '7', '4', '8', '3', '6', '4', '8'] = none := by decide
example : readInteger? ['-'] = none := by decide
example : readInteger? [' ', '1'] = none := by decide

end Crontab
