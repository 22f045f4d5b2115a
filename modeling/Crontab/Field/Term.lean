import Crontab.Field.Set
import Crontab.Text.Integer

/-! # The terms of a field

A field is a star, for every number, or terms with commas between them.  A term is a
number, a range `a-b`, or a stride `base/step`, whose base is a star, a range or the
number to start from.  Reading a term (`Term.read`) refuses whatever is not of this form,
a number out of bounds, and a range that ends before it starts.  Its numbers are then put
into the set one after the other (`FieldSet.insertTerm?`): a range or a stride that
reaches beyond the bounds puts in what lies within.
-/

namespace Crontab

/-- How far a stride goes from one number to the next. -/
abbrev Step := {n : Int // 0 < n}

/-- The step of a stride, which has to be positive. -/
def Step.of? (n : Int) : Option Step := if h : 0 < n then some ⟨n, h⟩ else none

/-- A term of a field. -/
inductive Term where
  /-- A number. -/
  | value (n : Int)
  /-- The numbers from one to another. -/
  | range (first last : Int)
  /-- Every `step`th number from one to another. -/
  | stride (first last : Int) (step : Step)
  deriving DecidableEq

namespace Term

variable (f : Field)

/-- A number, or the name of one. -/
def readValue (text : List Char) : Except FieldError Int :=
  match f.named? text with
  | some n => .ok n
  | none =>
    match readInteger? text with
    | some n => .ok n
    | none => .error (.badValue f (String.ofList text))

/-- The two ends of a range. -/
def readEnds (text : List Char) : Except FieldError (Int × Int) :=
  match text.splitOn '-' with
  | [first, last] => do return (← readValue f first, ← readValue f last)
  | _ => .error (.badRange f (String.ofList text))

/-- A single number, within the bounds. -/
def readSingle (text : List Char) : Except FieldError Term := do
  let n ← readValue f text
  if (f.least : Int) ≤ n ∧ n ≤ f.greatest then .ok (.value n) else .error (.outOfRange f n)

/-- A range that does not end before it starts. -/
def readRange (text : List Char) : Except FieldError Term := do
  let (first, last) ← readEnds f text
  if last < first then .error (.reversedRange f (String.ofList text)) else .ok (.range first last)

/-- The numbers between which a stride goes.  One that starts from a number goes as
far as the field does. -/
def readBase (text : List Char) : Except FieldError (Int × Int) :=
  if text = ['*'] then .ok (f.least, f.greatest)
  else if '-' ∈ text then readEnds f text
  else do return (← readValue f text, (f.greatest : Int))

/-- A stride, from the texts on the two sides of its slash. -/
def readStride (base step : List Char) : Except FieldError Term :=
  match (readInteger? step).bind Step.of? with
  | none => .error (.badStep f (String.ofList step))
  | some step => do
    let (first, last) ← readBase f base
    return .stride first last step

/-- One of the terms of a field with the given text. -/
def read (fieldText text : List Char) : Except FieldError Term :=
  if text = [] then .error (.blankTerm f (String.ofList fieldText))
  else if '/' ∈ text then
    readStride f (text.takeWhile (· ≠ '/')) ((text.dropWhile (· ≠ '/')).drop 1)
  else if '-' ∈ text then readRange f text
  else readSingle f text

end Term

namespace FieldSet

variable (f : Field)

/-- All the numbers of a field. -/
def full : Except FieldError FieldSet :=
  (empty f).insertAll? (List.range' f.least (f.greatest + 1 - f.least))

/-- The set with one more member, or as it is if the number lies out of bounds. -/
def insertWithin? (s : FieldSet) (n : Int) : Except FieldError FieldSet :=
  if (s.least : Int) ≤ n ∧ n ≤ s.greatest then s.insert? n.toNat else .ok s

/-- The set with every `step`th number from one to another that lies within the bounds.
The walk is over as soon as its next number is too large for 32 bits. -/
def insertEvery? (s : FieldSet) (first last : Int) (step : Step) : Except FieldError FieldSet :=
  if first ≤ last then do
    let s ← s.insertWithin? first
    match _hnext : addInteger? first step with
    | some next => s.insertEvery? next last step
    | none => return s
  else .ok s
termination_by (last + 1 - first).toNat
decreasing_by
  have := (addInteger?_eq_some.mp _hnext).2
  have := step.property
  omega

/-- The set with the numbers of a term. -/
def insertTerm? (s : FieldSet) : Term → Except FieldError FieldSet
  | .value n => s.insert? n.toNat
  | .range first last => s.insertEvery? first last ⟨1, Int.one_pos⟩
  | .stride first last step => s.insertEvery? first last step

/-- The set that a field's text describes. -/
def read (text : List Char) : Except FieldError FieldSet :=
  if text = [] then .error (.blank f)
  else if text = ['*'] then full f
  else do
    let set ← (text.splitOn ',').foldlM
      (fun set term => do set.insertTerm? (← Term.read f text term)) (empty f)
    if set.isEmpty then .error (.noValues f (String.ofList text)) else .ok set

example : (read .minute "*/20,7-9".toList).map toList = .ok [0, 7, 8, 9, 20, 40] := by
  decide +kernel
example : (read .weekday "fri-7".toList).map toList = .ok [5, 6, 7] := by decide +kernel
example : (read .hour "20-99/2147483647".toList).map toList = .ok [20] := by decide +kernel
example : read .hour "5,,6".toList = .error (.blankTerm .hour "5,,6") := by decide +kernel
example : read .minute "70/5".toList = .error (.noValues .minute "70/5") := by decide +kernel

end FieldSet

end Crontab
