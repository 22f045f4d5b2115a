import Crontab.Proofs.Outcome
import Crontab.Field.Set.Members
import Crontab.Field.Term
import Mathlib.Data.Set.Lattice

/-! # How reading fills a set

Reading a field puts numbers into a set that begins without any, one after the other, and does
nothing else with it.  So whatever one insertion keeps, reading keeps (`FieldSet.read_keeps`).

A term stands for numbers (`Term.numbers`).  **Filling in a term adds exactly those of its numbers
that lie within the bounds** (`FieldSet.exists_insertTerm?`), and no term is refused.  For a range
and a stride that is a fact about their walk (`FieldSet.exists_insertEvery?`): one round adds the
number that it has come to (`FieldSet.exists_insertWithin?`), and the rounds after it add what is
a multiple of the step further on.  The walk may break off before its end, where the next number
would not be one of 32 bits, but there it has left the bounds for good.
-/

namespace Crontab

open Outcome

namespace Term

/-- The numbers that a term stands for. -/
def numbers : Term → Set Int
  | value n => {n}
  | range first last => {v | first ≤ v ∧ v ≤ last}
  | stride first last step => {v | v ≤ last ∧ ∃ k : Nat, v = first + k * (step : Int)}

/-- A number alone lies within the bounds, and no walk begins below the integers of 32 bits. -/
def Fits (f : Field) : Term → Prop
  | value n => f.least ≤ n ∧ n ≤ f.greatest
  | range first _ => -2147483648 ≤ first
  | stride first _ _ => -2147483648 ≤ first

variable {first last v : Int} {step : Step}

/-- No stride comes to a number below its start. -/
theorem le_of_mem_stride (h : v ∈ (stride first last step).numbers) : first ≤ v := by
  obtain ⟨-, k, rfl⟩ := h
  have := Int.mul_nonneg (Int.natCast_nonneg k) (Int.le_of_lt step.property)
  omega

/-- A stride steps on its start and then goes on from the next number. -/
theorem numbers_stride (h : first ≤ last) : (stride first last step).numbers =
    {first} ∪ (stride (first + step) last step).numbers := by
  have hnext (k : Nat) : first + ((k + 1 : Nat) : Int) * step = first + step + k * step := by
    rw [Int.natCast_add, Int.add_mul, Int.natCast_one, Int.one_mul]
    omega
  ext v
  constructor
  · rintro ⟨hlast, k, hk⟩
    cases k with
    | zero => exact Or.inl (by simpa using hk)
    | succ k => exact Or.inr ⟨hlast, k, hk.trans (hnext k)⟩
  · rintro (rfl | ⟨hlast, k, hk⟩)
    · exact ⟨h, 0, by simp⟩
    · exact ⟨hlast, k + 1, hk.trans (hnext k).symm⟩

/-- A range is a stride by ones. -/
theorem numbers_range : (range first last).numbers =
    (stride first last ⟨1, Int.one_pos⟩).numbers := by
  ext v
  constructor
  · rintro ⟨hfirst, hlast⟩
    exact ⟨hlast, (v - first).toNat, by simp only [Int.mul_one]; omega⟩
  · intro h
    exact ⟨le_of_mem_stride h, h.1⟩

end Term

namespace FieldSet

variable {s t u : FieldSet} {f : Field} {text : List Char} {n : Nat} {first last : Int}
  {step : Step} {S T : Set Int}

/-! ### What one insertion keeps -/

section Keeps

variable {p : FieldSet → Prop} (hp : ∀ {s t : FieldSet} {n}, p s → s.insert? n = .ok t → p t)
include hp

theorem insertAll?_keeps {ns : List Nat} (hs : p s) (h : s.insertAll? ns = .ok t) : p t := by
  induction ns generalizing s with
  | nil =>
    cases h
    exact hs
  | cons n ns ih =>
    obtain ⟨u, hu, h⟩ := bind_eq_ok.mp h
    exact ih (hp hs hu) h

theorem insertWithin?_keeps (hs : p s) (h : s.insertWithin? first = .ok t) : p t := by
  unfold insertWithin? at h
  split at h
  · exact hp hs h
  · cases h
    exact hs

theorem insertEvery?_keeps (hs : p s) (h : s.insertEvery? first last step = .ok t) : p t := by
  induction s, first using insertEvery?.induct last step with
  | case1 s first hle ih =>
    rw [insertEvery?, if_pos hle] at h
    obtain ⟨u, hu, h⟩ := bind_eq_ok.mp h
    have hpu := insertWithin?_keeps hp hs hu
    split at h
    · rename_i next hnext
      exact ih u next hnext hpu h
    · cases h
      exact hpu
  | case2 s first hgt =>
    rw [insertEvery?, if_neg hgt] at h
    cases h
    exact hs

theorem insertTerm?_keeps {term : Term} (hs : p s) (h : s.insertTerm? term = .ok t) : p t := by
  cases term with
  | value n => exact hp hs h
  | range first last => exact insertEvery?_keeps hp hs h
  | stride first last step => exact insertEvery?_keeps hp hs h

/-- **What the empty set has and every insertion keeps, the set has that a field is read as.** -/
theorem read_keeps (hempty : p (empty f)) (h : read f text = .ok t) : p t := by
  unfold read at h
  split at h
  · cases h
  · split at h
    · exact insertAll?_keeps hp hempty h
    · obtain ⟨set, hset, h⟩ := bind_eq_ok.mp h
      split at h
      · cases h
      · cases h
        obtain ⟨terms, -, hfill⟩ := foldlM_bind_eq_ok.mp hset
        exact foldlM_keeps (fun hs h => insertTerm?_keeps hp hs h) hempty hfill

end Keeps

/-! ### What a term adds -/

/-- The second set is the first with those numbers of a set that lie within the bounds. -/
structure Gains (s t : FieldSet) (S : Set Int) : Prop where
  least_eq : t.least = s.least
  greatest_eq : t.greatest = s.greatest
  mem : ∀ n : Nat, n ∈ t ↔ n ∈ s ∨ s.Bounds n ∧ (n : Int) ∈ S

namespace Gains

/-- Nothing within the bounds leaves a set as it is. -/
theorem nothing (h : ∀ n : Nat, s.Bounds n → (n : Int) ∉ S) : s.Gains s S :=
  ⟨rfl, rfl, fun n => (or_iff_left fun hn => h n hn.1 hn.2).symm⟩

theorem union (hs : s.Gains t S) (ht : t.Gains u T) : s.Gains u (S ∪ T) := by
  refine ⟨ht.least_eq.trans hs.least_eq, ht.greatest_eq.trans hs.greatest_eq, fun n => ?_⟩
  have hbounds : t.Bounds n ↔ s.Bounds n := by
    rw [Bounds, Bounds, hs.least_eq, hs.greatest_eq]
  rw [ht.mem, hs.mem, hbounds, or_assoc, ← and_or_left, Set.mem_union]

/-- Only what lies within the bounds matters. -/
theorem congr (h : s.Gains t S) (hST : ∀ n : Nat, s.Bounds n → ((n : Int) ∈ S ↔ (n : Int) ∈ T)) :
    s.Gains t T :=
  ⟨h.least_eq, h.greatest_eq, fun n => (h.mem n).trans (or_congr_right (and_congr_right (hST n)))⟩

end Gains

theorem exists_insert? (hs : s.greatest < 64) (hn : s.Bounds n) :
    ∃ t, s.insert? n = .ok t ∧ s.Gains t {(n : Int)} := by
  obtain ⟨t, ht⟩ : ∃ t, s.insert? n = .ok t := ⟨_, if_pos hn⟩
  obtain ⟨-, hleast, hgreatest⟩ := field_insert? ht
  refine ⟨t, ht, hleast, hgreatest, fun m => ?_⟩
  have := hn.2
  rw [mem_insert? ht, Set.mem_singleton_iff, Int.ofNat_inj]
  refine or_congr_right ⟨?_, fun h => ⟨h.2, by omega⟩⟩
  rintro ⟨rfl, -⟩
  exact ⟨hn, rfl⟩

/-- One round adds the number that the walk has come to. -/
theorem exists_insertWithin? (hs : s.greatest < 64) (v : Int) :
    ∃ t, s.insertWithin? v = .ok t ∧ s.Gains t {v} := by
  unfold insertWithin?
  split
  · rename_i hv
    obtain ⟨n, rfl⟩ := Int.eq_ofNat_of_zero_le (Int.le_trans (Int.natCast_nonneg _) hv.1)
    exact exists_insert? hs ⟨by omega, by omega⟩
  · rename_i hv
    refine ⟨s, rfl, .nothing fun n hn he => hv ?_⟩
    obtain ⟨hleast, hgreatest⟩ := hn
    rw [Set.mem_singleton_iff] at he
    omega

/-- **A walk adds what it steps on**, as far as that lies within the bounds. -/
theorem exists_insertEvery? (hs : s.greatest < 64) (hfirst : -2147483648 ≤ first) :
    ∃ t, s.insertEvery? first last step = .ok t ∧
      s.Gains t (Term.stride first last step).numbers := by
  induction s, first using insertEvery?.induct last step with
  | case1 s first hle ih =>
    obtain ⟨u, hu, hgains⟩ := exists_insertWithin? hs first
    rw [insertEvery?, if_pos hle, hu, Term.numbers_stride hle]
    dsimp only [bind, Except.bind]
    split
    · rename_i next hnext
      obtain ⟨⟨hlow, -⟩, rfl⟩ := addInteger?_eq_some.mp hnext
      obtain ⟨t, ht, hrest⟩ := ih u _ hnext (hgains.greatest_eq ▸ hs) hlow
      exact ⟨t, ht, hgains.union hrest⟩
    · -- the walk breaks off, and what it would have come to lies out of bounds
      rename_i hnone
      refine ⟨u, rfl, hgains.congr fun n hn => (or_iff_left fun hmem => ?_).symm⟩
      have hge := Term.le_of_mem_stride hmem
      have hgreatest := hn.2
      have hpos := step.property
      rw [addInteger?, if_pos (by omega)] at hnone
      cases hnone
  | case2 s first hgt =>
    rw [insertEvery?, if_neg hgt]
    refine ⟨s, rfl, .nothing fun n _ hmem => hgt ?_⟩
    exact Int.le_trans (Term.le_of_mem_stride hmem) hmem.1

/-- **A term adds the numbers that it stands for**, as far as they lie within the bounds. -/
theorem exists_insertTerm? {term : Term} (hs : s.least = f.least ∧ s.greatest = f.greatest)
    (hterm : term.Fits f) : ∃ t, s.insertTerm? term = .ok t ∧ s.Gains t term.numbers := by
  have hs64 : s.greatest < 64 := hs.2 ▸ f.greatest_lt
  cases term with
  | value n =>
    obtain ⟨hleast, hgreatest⟩ := hterm
    obtain ⟨n, rfl⟩ := Int.eq_ofNat_of_zero_le (Int.le_trans (Int.natCast_nonneg _) hleast)
    exact exists_insert? hs64 ⟨by omega, by omega⟩
  | range first last =>
    rw [Term.numbers_range]
    exact exists_insertEvery? hs64 hterm
  | stride first last step => exact exists_insertEvery? hs64 hterm

theorem exists_insertTerms? {terms : List Term} (hs : s.least = f.least ∧ s.greatest = f.greatest)
    (hterms : ∀ term ∈ terms, term.Fits f) : ∃ t, terms.foldlM insertTerm? s = .ok t ∧
      s.Gains t {v | ∃ term ∈ terms, v ∈ term.numbers} := by
  induction terms generalizing s with
  | nil => exact ⟨s, rfl, .nothing fun n _ hn => by simp at hn⟩
  | cons term terms ih =>
    obtain ⟨u, hu, hgains⟩ := exists_insertTerm? hs (hterms term (by simp))
    obtain ⟨t, ht, hrest⟩ := ih ⟨hgains.least_eq.trans hs.1, hgains.greatest_eq.trans hs.2⟩
      fun other hother => hterms other (by simp [hother])
    refine ⟨t, bind_eq_ok.mpr ⟨u, hu, ht⟩, (hgains.union hrest).congr fun n _ => ?_⟩
    simp

end FieldSet

end Crontab
