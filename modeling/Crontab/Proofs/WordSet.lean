import Crontab.Proofs.Invariant
import Mathlib.Data.Finset.Max
import Mathlib.Data.Nat.BitIndices
import Mathlib.Order.Bounds.Basic

/-! # A word as a finite set

The bits of a field set are a number, and the exponents of its powers of two are the members
(`FieldSet.members`).  **Every answer of a set that reading an expression passes through is the
answer of that finite set** (`FieldSet.Refines`): the nearest members on either side of any integer,
the ascending list, the size and the ends.  Adding or removing a number changes it by that number
alone and is refused exactly out of bounds (`FieldSet.Updates`).

The operations are done in place on a word of 64 bits, where a shift by as much as the word is long
has no answer (`FieldSet.Word`).  No operation comes to such a shift (`FieldSet.FitsWord`).

What carries the proof is that the bounds stay below 64 and no member leaves them
(`FieldSet.KeepsBounds`).  Each step of reading keeps that (`FieldSet.Reached.keepsBounds`), and all
else follows from it.
-/

namespace Crontab

open Outcome

namespace FieldSet

variable {s t : FieldSet} {f : Field} {n m amount : Nat} {target : Int}

/-! ### The finite set -/

/-- The exponents of the powers of two that the bits add up to. -/
def members (s : FieldSet) : Finset Nat := s.bits.toNat.bitIndices.toFinset

theorem mem_members : n ∈ s.members ↔ n ∈ s := by
  rw [members, List.mem_toFinset, Nat.mem_bitIndices, mem_def, BitVec.getLsbD]

theorem members_eq_empty_iff : s.members = ∅ ↔ s.isEmpty = true := by
  simp only [isEmpty_iff, Finset.eq_empty_iff_forall_notMem, mem_members]

/-- **The set answers as a finite set does.** -/
structure Refines (s : FieldSet) (S : Finset Nat) : Prop where
  mem : ∀ n, n ∈ s ↔ n ∈ S
  next : ∀ (target : Int) n, s.next? target = some n ↔ IsLeast {m : Nat | m ∈ S ∧ target ≤ m} n
  next_none : ∀ target : Int, s.next? target = none ↔ ∀ m ∈ S, (m : Int) < target
  prev : ∀ (target : Int) n,
    s.prev? target = some n ↔ IsGreatest {m : Nat | m ∈ S ∧ (m : Int) ≤ target} n
  prev_none : ∀ target : Int, s.prev? target = none ↔ ∀ m ∈ S, target < m
  ascending : s.toList.Pairwise (· < ·)
  listed : ∀ n, n ∈ s.toList ↔ n ∈ S
  size : s.size = s.toList.length
  isEmpty : s.isEmpty = true ↔ S = ∅
  first : s.first? = s.toList.head?
  last : s.last? = s.toList.getLast?

/-- The finite set after a number has been added or removed, which is refused exactly out of
bounds. -/
structure Updates (s : FieldSet) (S : Finset Nat) : Prop where
  insert : ∀ n t, s.insert? n = .ok t → t.Refines (insert n S)
  erase : ∀ n t, s.erase? n = .ok t → t.Refines (S.erase n)
  insert_refused : ∀ n, (∃ reason, s.insert? n = .error reason) ↔ ¬ s.Bounds n
  erase_refused : ∀ n, (∃ reason, s.erase? n = .error reason) ↔ ¬ s.Bounds n

/-! ### The word -/

namespace Word

/-- A shift to the left by less than the word is long. -/
def shiftLeft? (x : BitVec 64) (amount : Int) : Option (BitVec 64) :=
  if 0 ≤ amount ∧ amount < 64 then some (x <<< amount.toNat) else none

/-- A shift to the right by less than the word is long. -/
def shiftRight? (x : BitVec 64) (amount : Int) : Option (BitVec 64) :=
  if 0 ≤ amount ∧ amount < 64 then some (x >>> amount.toNat) else none

/-- Whether a number is a member. -/
def contains (s : FieldSet) (n : Nat) : Option Bool :=
  if n < 64 then do
    let bit ← shiftLeft? 1 n
    return s.bits &&& bit != 0
  else return false

/-- What an update comes to in place: its outcome, and the set afterwards, which is as it was if the
update is refused. -/
def inPlace (s : FieldSet) : Except FieldError FieldSet → Except FieldError Unit × FieldSet
  | .ok t => (.ok (), t)
  | .error reason => (.error reason, s)

/-- Adds a number in place: the outcome, and the set afterwards. -/
def insert (s : FieldSet) (n : Nat) : Option (Except FieldError Unit × FieldSet) :=
  if s.Bounds n then do
    let bit ← shiftLeft? 1 n
    return (.ok (), { s with bits := s.bits ||| bit })
  else return (.error (.outOfBounds s.field n s.least s.greatest), s)

/-- Removes a number in place: the outcome, and the set afterwards. -/
def erase (s : FieldSet) (n : Nat) : Option (Except FieldError Unit × FieldSet) :=
  if s.Bounds n then do
    let bit ← shiftLeft? 1 n
    return (.ok (), { s with bits := s.bits &&& ~~~ bit })
  else return (.error (.outOfBounds s.field n s.least s.greatest), s)

/-- The least member that is at least `target`. -/
def next (s : FieldSet) (target : Int) : Option (Option Nat) :=
  if 63 < target then return none
  else do
    let mask ← shiftLeft? (BitVec.allOnes 64) (max target 0)
    let above := s.bits &&& mask
    return if above = 0 then none else some above.ctz.toNat

/-- The greatest member that is at most `target`. -/
def prev (s : FieldSet) (target : Int) : Option (Option Nat) :=
  if target < 0 then return none
  else do
    let mask ← shiftRight? (BitVec.allOnes 64) (63 - min target 63)
    let below := s.bits &&& mask
    return if below = 0 then none else some (63 - below.clz.toNat)

/-- Moves every member and both bounds down, which may take no bound below zero. -/
def shiftDown (s : FieldSet) (amount : Nat) : Option FieldSet := do
  let bits ← shiftRight? s.bits amount
  if amount ≤ s.least ∧ amount ≤ s.greatest then
    return { s with least := s.least - amount, greatest := s.greatest - amount, bits }
  else none

theorem shiftLeft?_eq_some {x : BitVec 64} (h : 0 ≤ target ∧ target < 64) :
    shiftLeft? x target = some (x <<< target.toNat) := if_pos h

theorem shiftRight?_eq_some {x : BitVec 64} (h : 0 ≤ target ∧ target < 64) :
    shiftRight? x target = some (x >>> target.toNat) := if_pos h

theorem contains_eq (s : FieldSet) (n : Nat) : contains s n = some (decide (n ∈ s)) := by
  unfold contains
  by_cases hn : n < 64
  · have hbit : shiftLeft? 1 n = some (BitVec.twoPow 64 n) := shiftLeft?_eq_some (by omega)
    rw [if_pos hn, hbit, Option.bind_eq_bind, Option.bind_some, BitVec.and_twoPow]
    by_cases hmem : n ∈ s
    · have hone : BitVec.twoPow 64 n ≠ 0#64 := by
        intro hzero
        have hset := congrArg (·.getLsbD n) hzero
        simp [hn] at hset
      rw [if_pos (mem_def.mp hmem)]
      simp [hmem, hone]
    · rw [if_neg (mt mem_def.mpr hmem)]
      simp [hmem]
  · rw [if_neg hn]
    simp [show n ∉ s from fun hmem => hn (lt_of_mem hmem)]

theorem next_eq (s : FieldSet) (target : Int) : next s target = some (s.next? target) := by
  unfold next next?
  by_cases hbig : 63 < target
  · rw [if_pos hbig, if_pos hbig]
    rfl
  · rw [if_neg hbig, if_neg hbig, shiftLeft?_eq_some (by omega),
      show (max target 0).toNat = target.toNat by omega]
    rfl

theorem prev_eq (s : FieldSet) (target : Int) : prev s target = some (s.prev? target) := by
  unfold prev prev?
  by_cases hneg : target < 0
  · rw [if_pos hneg, if_pos hneg]
    rfl
  · rw [if_neg hneg, if_neg hneg, shiftRight?_eq_some (by omega),
      show (63 - min target 63).toNat = 63 - min target.toNat 63 by omega]
    rfl

theorem insert_eq (h : s.greatest < 64) (n : Nat) :
    insert s n = some (inPlace s (s.insert? n)) := by
  unfold insert insert?
  by_cases hn : s.Bounds n
  · have := hn.2
    rw [if_pos hn, if_pos hn, shiftLeft?_eq_some (by omega)]
    rfl
  · rw [if_neg hn, if_neg hn]
    rfl

theorem erase_eq (h : s.greatest < 64) (n : Nat) :
    erase s n = some (inPlace s (s.erase? n)) := by
  unfold erase erase?
  by_cases hn : s.Bounds n
  · have := hn.2
    rw [if_pos hn, if_pos hn, shiftLeft?_eq_some (by omega)]
    rfl
  · rw [if_neg hn, if_neg hn]
    rfl

theorem shiftDown_eq (h : s.greatest < 64) (hle : s.least ≤ s.greatest) (ha : amount ≤ s.least) :
    shiftDown s amount = some (s.shiftDown amount) := by
  unfold shiftDown
  rw [shiftRight?_eq_some (by omega), Option.bind_eq_bind, Option.bind_some,
    if_pos ⟨ha, Nat.le_trans ha hle⟩]
  rfl

end Word

/-- **No operation shifts by as much as the word is long**, and each leaves the set as it was unless
it succeeds. -/
structure FitsWord (s : FieldSet) : Prop where
  contains : ∀ n, Word.contains s n = some (decide (n ∈ s))
  next : ∀ target, Word.next s target = some (s.next? target)
  prev : ∀ target, Word.prev s target = some (s.prev? target)
  insert : ∀ n, Word.insert s n = some (Word.inPlace s (s.insert? n))
  erase : ∀ n, Word.erase s n = some (Word.inPlace s (s.erase? n))
  shiftDown : ∀ amount ≤ s.least, Word.shiftDown s amount = some (s.shiftDown amount)

/-! ### Sets that keep their bounds -/

/-- The bounds lie within a word, and no member leaves them. -/
structure KeepsBounds (s : FieldSet) : Prop where
  le : s.least ≤ s.greatest
  lt : s.greatest < 64
  bounds : ∀ n ∈ s, s.Bounds n

namespace KeepsBounds

theorem empty (f : Field) : (empty f).KeepsBounds :=
  ⟨f.least_le_greatest, f.greatest_lt, fun n hn => absurd hn (not_mem_empty f n)⟩

theorem insert (h : s.KeepsBounds) (ht : s.insert? n = .ok t) : t.KeepsBounds := by
  obtain ⟨-, hleast, hgreatest⟩ := field_insert? ht
  refine ⟨by rw [hleast, hgreatest]; exact h.le, by rw [hgreatest]; exact h.lt, fun m hm => ?_⟩
  rw [Bounds, hleast, hgreatest]
  rcases (mem_insert? ht).mp hm with hm | ⟨rfl, -⟩
  · exact h.bounds m hm
  · exact bounds_of_insert? ht

theorem erase (h : s.KeepsBounds) (ht : s.erase? n = .ok t) : t.KeepsBounds := by
  obtain ⟨-, hleast, hgreatest⟩ := field_erase? ht
  refine ⟨by rw [hleast, hgreatest]; exact h.le, by rw [hgreatest]; exact h.lt, fun m hm => ?_⟩
  rw [Bounds, hleast, hgreatest]
  exact h.bounds m ((mem_erase? ht).mp hm).1

theorem shiftDown (h : s.KeepsBounds) (amount : Nat) :
    (s.shiftDown amount).KeepsBounds := by
  refine ⟨Nat.sub_le_sub_right h.le amount, Nat.lt_of_le_of_lt (Nat.sub_le _ _) h.lt, ?_⟩
  intro n hn
  obtain ⟨hleast, hgreatest⟩ := h.bounds _ (mem_shiftDown.mp hn)
  exact ⟨Nat.sub_le_of_le_add hleast, Nat.le_sub_of_add_le hgreatest⟩

theorem withGreatest (h : s.KeepsBounds) {greatest : Nat} (hle : s.least ≤ greatest)
    (hlt : greatest < 64) (hbounds : ∀ n ∈ s, n ≤ greatest) :
    (s.withGreatest greatest).KeepsBounds :=
  ⟨hle, hlt, fun n hn => ⟨(h.bounds n hn).1, hbounds n hn⟩⟩

theorem first?_eq (h : s.KeepsBounds) : s.first? = s.toList.head? := by
  have hascending := s.pairwise_toList
  unfold first?
  cases hlist : s.toList with
  | nil =>
    refine next?_eq_none_iff.mpr fun m hm => ?_
    have := (mem_toList_of_bounds h.bounds).mpr hm.1
    simp [hlist] at this
  | cons n rest =>
    rw [hlist, List.pairwise_cons] at hascending
    have hn : n ∈ s := (mem_toList_of_bounds h.bounds).mp (by simp [hlist])
    refine next?_eq_some_iff.mpr ⟨⟨hn, Int.natCast_nonneg n⟩, fun m hm => ?_⟩
    have hm := (mem_toList_of_bounds h.bounds).mpr hm.1
    rw [hlist] at hm
    rcases List.mem_cons.mp hm with rfl | hm
    · exact Nat.le_refl m
    · exact Nat.le_of_lt (hascending.1 m hm)

theorem last?_eq (h : s.KeepsBounds) : s.last? = s.toList.getLast? := by
  have hascending := s.pairwise_toList
  unfold last?
  rcases List.eq_nil_or_concat s.toList with hlist | ⟨rest, n, hlist⟩
  · rw [hlist]
    refine prev?_eq_none_iff.mpr fun m hm => ?_
    have := (mem_toList_of_bounds h.bounds).mpr hm.1
    simp [hlist] at this
  · rw [hlist, List.concat_eq_append, List.pairwise_append] at hascending
    have hn : n ∈ s := (mem_toList_of_bounds h.bounds).mp (by simp [hlist])
    have hlt := lt_of_mem hn
    rw [hlist, List.concat_eq_append, List.getLast?_concat]
    refine prev?_eq_some_iff.mpr ⟨⟨hn, by omega⟩, fun m hm => ?_⟩
    have hm := (mem_toList_of_bounds h.bounds).mpr hm.1
    rw [hlist, List.concat_eq_append] at hm
    rcases List.mem_append.mp hm with hm | hm
    · exact Nat.le_of_lt (hascending.2.2 m hm n (by simp))
    · exact Nat.le_of_eq (List.mem_singleton.mp hm)

/-- **A set that keeps its bounds answers as the finite set of its bits does.** -/
theorem refines (h : s.KeepsBounds) : s.Refines s.members where
  mem _ := mem_members.symm
  next target n := by
    simp only [mem_members]
    exact next?_eq_some_iff
  next_none target := by
    simp only [mem_members, next?_eq_none_iff, not_and, Int.not_le]
  prev target n := by
    simp only [mem_members]
    exact prev?_eq_some_iff
  prev_none target := by
    simp only [mem_members, prev?_eq_none_iff, not_and, Int.not_le]
  ascending := s.pairwise_toList
  listed _ := (mem_toList_of_bounds h.bounds).trans mem_members.symm
  size := size_eq_length h.bounds
  isEmpty := members_eq_empty_iff.symm
  first := h.first?_eq
  last := h.last?_eq

theorem updates (h : s.KeepsBounds) : s.Updates s.members where
  insert n t ht := by
    have hmembers : t.members = Insert.insert n s.members := by
      have hlt : n < 64 := Nat.lt_of_le_of_lt (bounds_of_insert? ht).2 h.lt
      ext m
      rw [mem_members, mem_insert? ht, Finset.mem_insert, mem_members, or_comm]
      exact or_congr_left (and_iff_left_of_imp fun hm => hm ▸ hlt)
    rw [← hmembers]
    exact (h.insert ht).refines
  erase n t ht := by
    have hmembers : t.members = s.members.erase n := by
      ext m
      rw [mem_members, mem_erase? ht, Finset.mem_erase, mem_members, and_comm]
    rw [← hmembers]
    exact (h.erase ht).refines
  insert_refused _ := insert?_refused_iff
  erase_refused _ := erase?_refused_iff

theorem fitsWord (h : s.KeepsBounds) : s.FitsWord where
  contains := Word.contains_eq s
  next := Word.next_eq s
  prev := Word.prev_eq s
  insert := Word.insert_eq h.lt
  erase := Word.erase_eq h.lt
  shiftDown _ := Word.shiftDown_eq h.lt h.le

end KeepsBounds

/-! ### The sets that reading passes through -/

/-- **What reading an expression may do with a set**: begin without members, put a number in or take
one out, move a set down by no more than its lower bound, and narrow the upper bound down to the
members. -/
inductive Reached : FieldSet → Prop
  | empty (f : Field) : Reached (empty f)
  | insert {s t : FieldSet} {n : Nat} : Reached s → s.insert? n = .ok t → Reached t
  | erase {s t : FieldSet} {n : Nat} : Reached s → s.erase? n = .ok t → Reached t
  | shiftDown {s : FieldSet} {amount : Nat} : Reached s → amount ≤ s.least →
      Reached (s.shiftDown amount)
  | withGreatest {s : FieldSet} {greatest : Nat} : Reached s → s.least ≤ greatest →
      greatest ≤ s.greatest → (∀ n ∈ s, n ≤ greatest) → Reached (s.withGreatest greatest)

/-- **Every set that reading passes through keeps its bounds.** -/
theorem Reached.keepsBounds (h : s.Reached) : s.KeepsBounds := by
  induction h with
  | empty f => exact .empty f
  | insert _ ht ih => exact ih.insert ht
  | erase _ ht ih => exact ih.erase ht
  | shiftDown _ _ ih => exact ih.shiftDown _
  | withGreatest _ hle hgreatest hbounds ih =>
    exact ih.withGreatest hle (Nat.lt_of_le_of_lt hgreatest ih.lt) hbounds

theorem reached_of_read {text : List Char} (h : read f text = .ok s) : s.Reached :=
  read_keeps .insert (.empty f) h

theorem Reached.foldSunday (h : s.Reached) (hs : s.Between 0 7)
    (ht : Schedule.foldSunday s = .ok t) : t.Reached := by
  have hbounds := (hs.foldSunday ht).bounds
  unfold Schedule.foldSunday at ht
  split at ht
  · obtain ⟨erased, he, ht⟩ := bind_eq_ok.mp ht
    obtain ⟨inserted, hi, ht⟩ := bind_eq_ok.mp ht
    cases ht
    have hleast : inserted.least = 0 := by
      rw [(field_insert? hi).2.1, (field_erase? he).2.1, hs.least_eq]
    have hgreatest : inserted.greatest = 7 := by
      rw [(field_insert? hi).2.2, (field_erase? he).2.2, hs.greatest_eq]
    exact ((h.erase he).insert hi).withGreatest (by omega) (by omega) fun n hn => (hbounds n hn).2
  · cases ht
    exact h.withGreatest (by rw [hs.least_eq]; omega) (by rw [hs.greatest_eq]; omega)
      fun n hn => (hbounds n hn).2

/-- Reading an expression has passed through its five sets. -/
theorem reached_of_parse {expression : String} {schedule : Schedule}
    (hs : Schedule.parse expression = .ok schedule) :
    ∀ set ∈ [schedule.minutes, schedule.hours, schedule.days, schedule.months, schedule.weekdays],
      set.Reached := by
  obtain ⟨text, -, h⟩ := Schedule.exists_fields_of_parse hs
  obtain ⟨set, weekdays, hread, hfold, -, rfl⟩ := Schedule.ofFields_eq_ok.mp h
  have hset : ∀ f, (set f).Reached := fun f => reached_of_read (hread f)
  have hmonth : (set .month).least = 1 := (fresh_of_read (hread .month)).least_eq
  have hweekdays : weekdays.Reached :=
    (hset .weekday).foldSunday (fresh_of_read (hread .weekday)).between hfold
  simp only [List.forall_mem_cons, List.not_mem_nil, false_imp_iff, implies_true, and_true]
  exact ⟨hset .minute, hset .hour, hset .day, (hset .month).shiftDown (by omega), hweekdays⟩

/-- **Every set that reading an expression passes through refines a finite set.**  These sets
include the five of every schedule that comes from an expression, with months from `0` and Sunday folded.
Each of them gives the answers of the finite set of its bits, for all integers; adding and removing
a number is refused exactly out of bounds and else changes that number alone; and no operation
shifts the word by as much as it is long. -/
theorem reached_refines :
    (∀ (expression : String) (schedule : Schedule), Schedule.parse expression = .ok schedule →
      ∀ set ∈ [schedule.minutes, schedule.hours, schedule.days, schedule.months,
        schedule.weekdays], set.Reached) ∧
    ∀ s : FieldSet, s.Reached → s.Refines s.members ∧ s.Updates s.members ∧ s.FitsWord :=
  ⟨fun _ _ => reached_of_parse, fun _ h =>
    ⟨h.keepsBounds.refines, h.keepsBounds.updates, h.keepsBounds.fitsWord⟩⟩

/-- January to March, and Friday to Sunday: the months are moved down and Sunday is folded, so no
integer however large finds a `3` among the months or a `7` among the weekdays. -/
theorem reached_refines_folded : ∃ schedule,
    Schedule.parse "0 0 1 jan-mar fri-7" = .ok schedule ∧
    (schedule.months.members = {0, 1, 2} ∧ schedule.weekdays.members = {0, 5, 6}) ∧
    (schedule.weekdays.next? (-2147483648) = some 0 ∧ schedule.weekdays.next? 7 = none ∧
      schedule.weekdays.prev? 2147483647 = some 6) ∧
    (Word.prev schedule.months 2147483647 = some (schedule.months.prev? 2147483647) ∧
      schedule.months.prev? 2147483647 = some 2) := by
  obtain ⟨schedule, hs, hmonths, hweekdays⟩ := Schedule.exists_of_parse "0 0 1 jan-mar fri-7"
    (fun s => s.months.toList = [0, 1, 2] ∧ s.weekdays.toList = [0, 5, 6]) (by decide +kernel)
  obtain ⟨hreached, hrefines⟩ := reached_refines
  obtain ⟨month, -, mword⟩ := hrefines _ (hreached _ _ hs schedule.months (by simp))
  obtain ⟨weekday, -, -⟩ := hrefines _ (hreached _ _ hs schedule.weekdays (by simp))
  have hmonth : schedule.months.members = {0, 1, 2} := by
    ext n
    rw [← month.listed, hmonths]
    simp
  have hweekday : schedule.weekdays.members = {0, 5, 6} := by
    ext n
    rw [← weekday.listed, hweekdays]
    simp
  refine ⟨schedule, hs, ⟨hmonth, hweekday⟩, ⟨?_, ?_, ?_⟩, mword.prev _, ?_⟩
  · rw [weekday.next, hweekday]
    exact ⟨by simp, fun m _ => Nat.zero_le m⟩
  · rw [weekday.next_none, hweekday]
    decide
  · rw [weekday.prev, hweekday]
    refine ⟨by simp, fun m hm => ?_⟩
    have : m = 0 ∨ m = 5 ∨ m = 6 := by simpa using hm.1
    omega
  · rw [month.prev, hmonth]
    refine ⟨by simp, fun m hm => ?_⟩
    have : m = 0 ∨ m = 1 ∨ m = 2 := by simpa using hm.1
    omega

end FieldSet

end Crontab
