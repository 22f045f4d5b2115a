import Crontab.Error

/-! # Sets of field values

A `FieldSet` holds the numbers that a field allows, one bit each, between bounds of
its own: those of the field, until `shiftDown` moves them or `withGreatest` narrows
them.  Membership is a bit test, and the nearest member on either side of a number
is found by masking the others off (`next?`, `prev?`).
-/

namespace Crontab

/-- Numbers below 64, as the bits of a word, and the bounds that they keep. -/
structure FieldSet where
  /-- The field that the numbers belong to. -/
  field : Field
  /-- The least number that the set may hold. -/
  least : Nat
  /-- The greatest number that the set may hold. -/
  greatest : Nat
  /-- The members: bit `n` is set when `n` is one. -/
  bits : BitVec 64
  deriving DecidableEq

namespace FieldSet

instance : Membership Nat FieldSet where
  mem s n := s.bits.getLsbD n = true

theorem mem_def {n : Nat} {s : FieldSet} : n ∈ s ↔ s.bits.getLsbD n = true := Iff.rfl

instance (n : Nat) (s : FieldSet) : Decidable (n ∈ s) :=
  inferInstanceAs (Decidable (_ = true))

/-- Every member is less than 64. -/
theorem lt_of_mem {n : Nat} {s : FieldSet} (h : n ∈ s) : n < 64 :=
  BitVec.lt_of_getLsbD (mem_def.mp h)

/-- The set without members, between the bounds of the field. -/
def empty (f : Field) : FieldSet :=
  { field := f, least := f.least, greatest := f.greatest, bits := 0 }

theorem not_mem_empty (f : Field) (n : Nat) : n ∉ empty f := by
  simp [mem_def, empty]

/-! ### Members one by one -/

/-- The number lies between the bounds. -/
def Bounds (s : FieldSet) (n : Nat) : Prop := s.least ≤ n ∧ n ≤ s.greatest

instance (s : FieldSet) (n : Nat) : Decidable (s.Bounds n) :=
  inferInstanceAs (Decidable (_ ∧ _))

/-- The set with one more member, which has to lie between the bounds. -/
def insert? (s : FieldSet) (n : Nat) : Except FieldError FieldSet :=
  if s.Bounds n then .ok { s with bits := s.bits ||| BitVec.twoPow 64 n }
  else .error (.outOfBounds s.field n s.least s.greatest)

/-- The set without one of its members, which has to lie between the bounds. -/
def erase? (s : FieldSet) (n : Nat) : Except FieldError FieldSet :=
  if s.Bounds n then .ok { s with bits := s.bits &&& ~~~ BitVec.twoPow 64 n }
  else .error (.outOfBounds s.field n s.least s.greatest)

/-- The set with all the numbers of a list. -/
def insertAll? (s : FieldSet) : List Nat → Except FieldError FieldSet
  | [] => .ok s
  | n :: ns => do (← s.insert? n).insertAll? ns

/-! ### Bounds -/

/-- Every member and both bounds, less a number. -/
def shiftDown (s : FieldSet) (amount : Nat) : FieldSet :=
  { s with
    least := s.least - amount
    greatest := s.greatest - amount
    bits := s.bits >>> amount }

/-- The same members under another upper bound. -/
def withGreatest (s : FieldSet) (greatest : Nat) : FieldSet := { s with greatest }

/-! ### The set as a whole -/

/-- The members, ascending. -/
def toList (s : FieldSet) : List Nat :=
  (List.range' s.least (s.greatest + 1 - s.least)).filter (· ∈ s)

/-- The number of members. -/
def size (s : FieldSet) : Nat := (List.range 64).countP (· ∈ s)

/-- The set has no members. -/
def isEmpty (s : FieldSet) : Bool := s.bits == 0

/-- The set has as many members as its bounds allow. -/
def isFull (s : FieldSet) : Bool := s.size == s.greatest - s.least + 1

/-! ### Neighbours -/

/-- The least member that is at least `target`. -/
def next? (s : FieldSet) (target : Int) : Option Nat :=
  if 63 < target then none
  else
    let above := s.bits &&& (BitVec.allOnes 64 <<< target.toNat)
    if above = 0 then none else some above.ctz.toNat

/-- The greatest member that is at most `target`. -/
def prev? (s : FieldSet) (target : Int) : Option Nat :=
  if target < 0 then none
  else
    let below := s.bits &&& (BitVec.allOnes 64 >>> (63 - min target.toNat 63))
    if below = 0 then none else some (63 - below.clz.toNat)

/-- The least member. -/
def first? (s : FieldSet) : Option Nat := s.next? 0

/-- The greatest member. -/
def last? (s : FieldSet) : Option Nat := s.prev? 63

/-! ### Order -/

/-- Sets are ordered by their bits as a number, and sets with the same bits by field
and bounds. -/
instance : Ord FieldSet where
  compare a b :=
    (compare a.bits.toNat b.bits.toNat).then <|
      (compare a.field.index b.field.index).then <|
        (compare a.least b.least).then (compare a.greatest b.greatest)

example : (do (← (empty .hour).insertAll? [22, 3, 3]).erase? 22).map toList = .ok [3] := by
  decide +kernel
example : ((empty .day).insertAll? [5, 30, 31]).map (fun s => (s.next? 6, s.prev? 29, s.next? 32))
    = .ok (some 30, some 5, none) := by decide +kernel

end FieldSet

end Crontab
