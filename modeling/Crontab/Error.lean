import Crontab.Field

/-! # What can go wrong

Each error is a cause, with the figures that tell it from others of its kind; its
`message` puts it in words.  A field is refused with a `FieldError`, an expression
with an `ExpressionError`, a search ends with a `SearchError`, and a question about
runs (`Crontab.Question`) with a `Failure`, which is one of these or a zone that
nobody knows.
-/

namespace Crontab

/-- Two outcomes are compared by their values or by their causes of failure. -/
instance instDecidableEqExcept {ε α : Type} [DecidableEq ε] [DecidableEq α] :
    DecidableEq (Except ε α)
  | .ok a, .ok b => decidable_of_iff (a = b) (by simp)
  | .error a, .error b => decidable_of_iff (a = b) (by simp)
  | .ok _, .error _ => isFalse nofun
  | .error _, .ok _ => isFalse nofun

/-- Numbers in brackets, with a comma and a space between them. -/
def bracketed (ns : List Nat) : String :=
  "[" ++ String.intercalate ", " (ns.map toString) ++ "]"

/-- A reason to refuse a field. -/
inductive FieldError where
  /-- The field has no text. -/
  | blank (f : Field)
  /-- Nothing stands before, between or after the commas of `text`. -/
  | blankTerm (f : Field) (text : String)
  /-- The text is no number of 32 bits and no name. -/
  | badValue (f : Field) (text : String)
  /-- The number lies outside the bounds. -/
  | outOfRange (f : Field) (value : Int)
  /-- The text has not exactly one dash. -/
  | badRange (f : Field) (text : String)
  /-- The range ends before it starts. -/
  | reversedRange (f : Field) (text : String)
  /-- The step is no positive number of 32 bits. -/
  | badStep (f : Field) (text : String)
  /-- No term of `text` yields a number within the bounds. -/
  | noValues (f : Field) (text : String)
  /-- A set with these bounds does not reach the position. -/
  | outOfBounds (f : Field) (position least greatest : Nat)
  deriving DecidableEq

/-- The reason in words. -/
def FieldError.message : FieldError → String
  | blank f => s!"Empty {f.name} field."
  | blankTerm f text => s!"Empty value in {f.name} field '{text}'."
  | badValue f text => s!"Invalid value '{text}' in {f.name} field."
  | outOfRange f value =>
    s!"Value {value} out of range [{f.least}-{f.greatest}] in {f.name} field."
  | badRange f text => s!"Invalid range '{text}' in {f.name} field."
  | reversedRange f text => s!"Invalid range '{text}' in {f.name} field, start is after end."
  | badStep f text => s!"Invalid step '{text}' in {f.name} field."
  | noValues f text => s!"No valid values in {f.name} field '{text}'."
  | outOfBounds f position least greatest =>
    s!"Position {position} is out of bounds for the {f.name} range ({least}-{greatest})."

/-- A reason to refuse an expression. -/
inductive ExpressionError where
  /-- The expression holds nothing but blanks. -/
  | empty
  /-- The expression has `count` words in place of five fields. -/
  | fieldCount (count : Nat)
  /-- A field is refused. -/
  | field (reason : FieldError)
  /-- No month of any year has one of the days. -/
  | neverADate (days months : List Nat)
  deriving DecidableEq

/-- The reason in words. -/
def ExpressionError.message : ExpressionError → String
  | empty => "Cron expression cannot be empty."
  | fieldCount count => s!"Invalid pattern: expected 5 fields, got {count}"
  | field reason => "Component error: " ++ reason.message
  | neverADate days months =>
    "Invalid day/month combination: no configured day exists in any configured month (days "
      ++ bracketed days ++ ", months " ++ bracketed months ++ ")"

/-- A reason why a search has no answer. -/
inductive SearchError where
  /-- The search used up the steps it may take. -/
  | stepsExhausted
  /-- The search left the years in use. -/
  | outOfCalendar
  /-- The clock of the zone shows nothing at an instant that the search came to, since
  the offset takes it out of the years in use. -/
  | noReading
  deriving DecidableEq

/-- The reason in words. -/
def SearchError.message : SearchError → String
  | stepsExhausted => "Cron time search limit exceeded."
  | outOfCalendar => "Cron search encountered an invalid time."
  | noReading => "Cron search came to an instant that the clock of the zone does not show."

/-- The answer of a computation that may leave the years in use. -/
def orOutOfCalendar {α : Type} : Option α → Except SearchError α
  | some a => .ok a
  | none => .error .outOfCalendar

/-- A reason why a question about runs has no answer. -/
inductive Failure where
  /-- The expression is refused. -/
  | expression (reason : ExpressionError)
  /-- No zone has the name. -/
  | unknownZone (name : String)
  /-- The search has no answer. -/
  | search (reason : SearchError)
  deriving DecidableEq

/-- The reason in words. -/
def Failure.message : Failure → String
  | expression reason => reason.message
  | unknownZone name => "Unknown timezone: " ++ name
  | search reason => reason.message

end Crontab
