import Crontab.Proofs.ByteShapes
import Crontab.Proofs.Grammar
import Mathlib.Data.List.Sort
import Mathlib.Order.Interval.Finset.Nat

/-! # Which lists have a shape

A list is described by a step if its numbers start at the lower bound and go on by the step for as
long as the upper bound allows.  The list then is the whole progression (`Progression`) and has at
least two numbers, and conversely **every such progression is recognized**
(`step?_eq_some_iff`).  A field that is written with a star and a step holds such a progression
(`FieldSet.exists_read_everyStep`), so its step is found again.

A list of weekdays is described by its first day and Sunday if its days are Sunday and those from
the first to Saturday.  That depends on the days alone but for one case.  Whether there are three
of them is asked of the list and not of the days in it, so **Saturday and Sunday are taken for a
run exactly if one of the two is listed twice** (`runToSunday?_weekend`).
-/

namespace Crontab

variable {a b n step start : Nat} {ns days : List Nat}

/-! ### Steps -/

/-- **All the numbers from `first` on by a step** that do not go beyond `last`, each once and in
ascending order. -/
structure Progression (first last step : Nat) (ns : List Nat) : Prop where
  ascending : ns.Pairwise (· < ·)
  mem_iff : ∀ n, n ∈ ns ↔ n ≤ last ∧ ∃ k, n = first + k * step

/-- A progression is settled by where it starts, its step and how far it may go. -/
theorem progression_iff (hstep : 0 < step) (hab : a ≤ b) :
    Progression a b step ns ↔ ns = List.range' a ((b - a) / step + 1) step := by
  have hrange : Progression a b step (List.range' a ((b - a) / step + 1) step) :=
    ⟨List.pairwise_lt_range' step hstep, fun _ => mem_range'_step hstep hab⟩
  constructor
  · rintro ⟨hasc, hmem⟩
    exact hasc.eq_of_mem_iff hrange.ascending fun n => (hmem n).trans (hrange.mem_iff n).symm
  · rintro rfl
    exact hrange

theorem risesBy_range' (step : Nat) : ∀ a count, risesBy step (List.range' a count step) = true
  | _, 0 => rfl
  | _, 1 => rfl
  | a, count + 2 => by
      rw [List.range'_succ, List.range'_succ, risesBy, ← List.range'_succ, risesBy_range' step]
      simp

/-- A progression that goes a step at least is recognized by its step. -/
theorem step?_range' (hstep : 0 < step) (hle : a + step ≤ b) :
    step? a b (List.range' a ((b - a) / step + 1) step) = some step := by
  have hpos : 0 < (b - a) / step := Nat.div_pos (by omega) hstep
  generalize hcount : (b - a) / step = count at hpos
  obtain ⟨count, rfl⟩ := Nat.exists_eq_succ_of_ne_zero (Nat.ne_of_gt hpos)
  have hrises := risesBy_range' step a (count + 2)
  rw [List.range'_succ, List.range'_succ] at *
  have hlast := getLast?_of_risesBy hrises
  rw [List.length_cons, List.length_range', Nat.mul_comm] at hlast
  rw [step?, Nat.add_sub_cancel_left, hcount]
  exact if_pos ⟨hstep, rfl, hrises, hlast⟩

/-- **A list has a step exactly if it is the whole progression**, with two numbers at least. -/
theorem step?_eq_some_iff (hab : a ≤ b) :
    step? a b ns = some step ↔ 0 < step ∧ 2 ≤ ns.length ∧ Progression a b step ns := by
  constructor
  · intro h
    have hns := eq_range'_of_step? h
    obtain ⟨hstep, hlen⟩ : 0 < step ∧ 2 ≤ ns.length := by
      unfold step? at h
      split at h
      · extract_lets all inc at h
        split at h
        · rename_i hc
          obtain rfl : inc = step := Option.some.inj h
          exact ⟨hc.1, by simp⟩
        · cases h
      · cases h
    exact ⟨hstep, hlen, (progression_iff hstep hab).mpr hns⟩
  · rintro ⟨hstep, hlen, hns⟩
    rw [progression_iff hstep hab] at hns
    rw [hns, List.length_range'] at hlen
    have hreach : step ≤ b - a := by
      by_contra hfar
      rw [Nat.div_eq_of_lt (Nat.lt_of_not_le hfar)] at hlen
      omega
    rw [hns]
    exact step?_range' hstep (by omega)

/-- **A field that is written with a star and a step holds the whole progression**, within bounds
of its own. -/
theorem FieldSet.exists_read_everyStep (f : Field) {text : List Char}
    (htext : SignedNumeral text step) (hstep : 0 < step) :
    ∃ set, FieldSet.read f ('*' :: '/' :: text) = .ok set ∧ set.Between f.least f.greatest ∧
      Progression f.least f.greatest step set.toList := by
  have htoken : f.Token (['*'] ++ '/' :: text) _ :=
    .stride .star htext (by exact_mod_cast hstep)
  -- a numeral has no comma in it, so the field is one term
  have hpieces : Separated ',' ('*' :: '/' :: text) ['*' :: '/' :: text] := by
    refine .one fun hmem => ?_
    have hcomma : ',' ∈ text := by simpa using hmem
    exact (Field.Spells.integer (f := f) htext).not_mem (c := ',') (by simp) hcomma
  have hleast : (f.least : Int) ∈ f.within [{v | v ≤ f.greatest ∧ ∃ k : Nat,
      v = f.least + k * (step : Int)}] := by
    have hle : (f.least : Int) ≤ f.greatest := by exact_mod_cast f.least_le_greatest
    exact ⟨⟨Int.le_refl _, hle⟩, _, List.mem_singleton_self _, hle, 0, by simp⟩
  obtain ⟨set, hset, hnumbers⟩ := Field.describes_iff.mp
    (.terms hpieces (.cons htoken .nil) ⟨_, hleast⟩)
  have hb : set.Between f.least f.greatest := (fresh_of_read hset).between
  refine ⟨set, hset, hb, set.pairwise_toList, fun n => ?_⟩
  rw [hb.mem_toList, ← mem_numbers, ← hnumbers]
  constructor
  · rintro ⟨-, _, hS, hn⟩
    obtain rfl := List.mem_singleton.mp hS
    obtain ⟨hle, k, hk⟩ := hn
    exact ⟨by exact_mod_cast hle, k, by exact_mod_cast hk⟩
  · rintro ⟨hle, k, rfl⟩
    have hfirst : (f.least : Int) ≤ (f.least + k * step : Nat) := by
      exact_mod_cast Nat.le_add_right _ _
    have hlast : ((f.least + k * step : Nat) : Int) ≤ f.greatest := by exact_mod_cast hle
    exact ⟨⟨hfirst, hlast⟩, _, List.mem_singleton_self _, hlast, k, by push_cast; rfl⟩

/-- **Steps are recognized exactly.**  Let `a` and `b` be bounds that a byte can hold.  Looking for
the step of a list never fails, and it finds a step exactly if the list has at least two numbers and
is the whole progression by that step from `a` as far as `b`.  In particular it finds the step that
a field is written with after a star, if the bounds of the field leave room for one. -/
theorem step?_exact (hab : a ≤ b) (hb : b < 256) (ns : List Nat) :
    Checked.step? a b ns = some (step? a b ns) ∧
    (∀ step, step? a b ns = some step ↔ 0 < step ∧ 2 ≤ ns.length ∧ Progression a b step ns) ∧
    ∀ (f : Field) (text : List Char) (step : Nat), SignedNumeral text step → 0 < step →
      f.least + step ≤ f.greatest → ∃ set, FieldSet.read f ('*' :: '/' :: text) = .ok set ∧
        (set.least = f.least ∧ set.greatest = f.greatest) ∧
        step? set.least set.greatest set.toList = some step := by
  refine ⟨Checked.step?_eq hab hb, fun step => step?_eq_some_iff hab, ?_⟩
  intro f text step htext hstep hle
  obtain ⟨set, hset, hbetween, hprogression⟩ := FieldSet.exists_read_everyStep f htext hstep
  refine ⟨set, hset, ⟨hbetween.least_eq, hbetween.greatest_eq⟩, ?_⟩
  rw [hbetween.least_eq, hbetween.greatest_eq,
    (progression_iff hstep f.least_le_greatest).mp hprogression]
  exact step?_range' hstep hle

/-- Every seventh day of the month, and the hours from bound to bound of a byte. -/
theorem step?_exact_weekly :
    step? 1 31 [1, 8, 15, 22, 29] = some 7 ∧ Progression 1 31 7 [1, 8, 15, 22, 29] ∧
    Checked.step? 0 255 [0, 200] = some (some 200) ∧
    ∃ set, FieldSet.read .day ['*', '/', '+', '0', '7'] = .ok set ∧
      step? set.least set.greatest set.toList = some 7 := by
  obtain ⟨-, hweekly, hfields⟩ := step?_exact (a := 1) (b := 31) (by decide) (by decide)
    [1, 8, 15, 22, 29]
  have hstep : step? 1 31 [1, 8, 15, 22, 29] = some 7 := by decide
  have htext : SignedNumeral ['+', '0', '7'] (7 : Nat) := signedNumeral_iff.mpr (by decide)
  obtain ⟨set, hset, -, hset'⟩ := hfields .day _ 7 htext (by decide) (by decide)
  obtain ⟨hwide, -⟩ := step?_exact (a := 0) (b := 255) (by decide) (by decide) [0, 200]
  exact ⟨hstep, ((hweekly 7).mp hstep).2.2, hwide, set, hset, hset'⟩

/-! ### Weekdays up to Sunday -/

theorem ascending_eq (ns : List Nat) : ascending ns = ns.insertionSort (· ≤ ·) := by
  have hinsert : ∀ n ms, insertAscending n ms = List.orderedInsert (· ≤ ·) n ms := by
    intro n ms
    induction ms with
    | nil => rfl
    | cons m ms ih => rw [insertAscending, List.orderedInsert_cons, ih]
  unfold ascending
  induction ns with
  | nil => rfl
  | cons n ns ih => rw [List.foldr_cons, List.insertionSort_cons, ih, hinsert]

/-- What is already kept stays in front. -/
theorem eraseReps_loop (n : Nat) (ns kept : List Nat) :
    List.eraseRepsBy.loop (· == ·) n ns kept =
      kept.reverse ++ List.eraseRepsBy.loop (· == ·) n ns [] := by
  induction ns generalizing n kept with
  | nil => simp [List.eraseRepsBy.loop]
  | cons m ns ih =>
    cases hnm : n == m with
    | true =>
      simp only [List.eraseRepsBy.loop, hnm]
      exact ih n kept
    | false =>
      simp only [List.eraseRepsBy.loop, hnm]
      rw [ih m (n :: kept), ih m [n]]
      simp

theorem eraseReps_cons_cons (n m : Nat) (ns : List Nat) : (n :: m :: ns).eraseReps =
    if n = m then (m :: ns).eraseReps else n :: (m :: ns).eraseReps := by
  by_cases hnm : n = m
  · subst hnm
    simp [List.eraseReps, List.eraseRepsBy, List.eraseRepsBy.loop]
  · simp only [List.eraseReps, List.eraseRepsBy, List.eraseRepsBy.loop, beq_eq_false_iff_ne.mpr hnm,
      if_neg hnm]
    exact eraseReps_loop m ns [n]

theorem mem_eraseReps : n ∈ ns.eraseReps ↔ n ∈ ns := by
  induction ns with
  | nil => rfl
  | cons m ns ih =>
    cases ns with
    | nil => rfl
    | cons k ns =>
      rw [eraseReps_cons_cons]
      split
      · rename_i hmk
        rw [ih, hmk]
        simp
      · rw [List.mem_cons, ih, ← List.mem_cons]

/-- Where equal numbers stand together, each is left once. -/
theorem pairwise_eraseReps (h : ns.Pairwise (· ≤ ·)) : ns.eraseReps.Pairwise (· < ·) := by
  induction ns with
  | nil => exact .nil
  | cons m ns ih =>
    obtain ⟨hm, hns⟩ := List.pairwise_cons.mp h
    cases ns with
    | nil => exact List.pairwise_singleton _ m
    | cons k ns =>
      rw [eraseReps_cons_cons]
      split
      · exact ih hns
      · rename_i hmk
        refine List.pairwise_cons.mpr ⟨fun n hn => ?_, ih hns⟩
        have hk := hm k (by simp)
        rcases List.mem_cons.mp (mem_eraseReps.mp hn) with rfl | hn
        · omega
        · have := (List.pairwise_cons.mp hns).1 n hn
          omega

/-- The days but for Sunday, each of them once. -/
theorem mem_weekdaysLeft {d : Nat} :
    d ∈ (ascending (days.filter (· ≠ 0))).eraseReps ↔ d ∈ days ∧ d ≠ 0 := by
  rw [mem_eraseReps, ascending_eq, List.mem_insertionSort, List.mem_filter, decide_eq_true_eq]

/-- The days of a run to Sunday are Sunday and those from the first to Saturday. -/
theorem runToSunday?_eq_some : runToSunday? days = some start ↔
    3 ≤ days.length ∧ (2 ≤ start ∧ start ≤ 6) ∧ ∀ d, d ∈ days ↔ d = 0 ∨ start ≤ d ∧ d ≤ 6 := by
  unfold runToSunday?
  constructor
  · intro h
    split at h
    · cases h
    · rename_i hlong
      obtain ⟨hlen, hsunday⟩ := not_or.mp hlong
      obtain ⟨first, hfirst, h⟩ := Option.bind_eq_some_iff.mp h
      split at h
      · cases h
      · split at h
        · rename_i hone hrun
          cases h
          have hmem : ∀ d, d ∈ days ∧ d ≠ 0 ↔ start ≤ d ∧ d < start + (7 - start) := fun d => by
            rw [← mem_weekdaysLeft, hrun, List.mem_range'_1]
          have hstart := (hmem start).mp (mem_weekdaysLeft.mp (List.mem_of_head? hfirst))
          refine ⟨by omega, by omega, fun d => ⟨fun hd => ?_, ?_⟩⟩
          · by_cases hzero : d = 0
            · exact Or.inl hzero
            · have := (hmem d).mp ⟨hd, hzero⟩
              omega
          · rintro (rfl | ⟨hle, hd⟩)
            · exact Classical.not_not.mp hsunday
            · exact ((hmem d).mpr (by omega)).1
        · cases h
  · rintro ⟨hlen, ⟨htwo, hsix⟩, hmem⟩
    have hsunday : 0 ∈ days := (hmem 0).mpr (Or.inl rfl)
    have hrun : (ascending (days.filter (· ≠ 0))).eraseReps = List.range' start (7 - start) := by
      have hsorted := List.pairwise_insertionSort (· ≤ ·) (days.filter (· ≠ 0))
      rw [← ascending_eq] at hsorted
      refine (pairwise_eraseReps hsorted).eq_of_mem_iff List.pairwise_lt_range' fun d => ?_
      rw [mem_weekdaysLeft, hmem, List.mem_range'_1]
      omega
    rw [if_neg (by simp [hsunday]; omega), hrun]
    have hhead : (List.range' start (7 - start)).head? = some start := by
      simp [List.head?_range']
      omega
    refine Option.bind_eq_some_iff.mpr ⟨start, hhead, ?_⟩
    rw [if_neg (by omega), if_pos rfl]

/-- The days of a run to Sunday, as a set. -/
theorem toFinset_eq_run_iff :
    days.toFinset = insert 0 (Finset.Icc start 6) ↔ ∀ d, d ∈ days ↔ d = 0 ∨ start ≤ d ∧ d ≤ 6 := by
  simp [Finset.ext_iff]

/-- Three days are too many for a list that is shorter. -/
theorem three_le_length (hfive : start ≤ 5) (hmem : ∀ d, d ∈ days ↔ d = 0 ∨ start ≤ d ∧ d ≤ 6) :
    3 ≤ days.length := by
  have hsub : [0, 5, 6].Subperm days :=
    List.subperm_of_subset (by decide) fun d hd => (hmem d).mpr (by simp at hd; omega)
  exact hsub.length_le

/-- **A run to Sunday, by the set of its days.** -/
theorem runToSunday?_eq_some_iff_toFinset : runToSunday? days = some start ↔
    days.toFinset = insert 0 (Finset.Icc start 6) ∧
      (2 ≤ start ∧ start ≤ 5 ∨ start = 6 ∧ 3 ≤ days.length) := by
  rw [runToSunday?_eq_some, toFinset_eq_run_iff]
  constructor
  · rintro ⟨hlen, ⟨htwo, hsix⟩, hmem⟩
    exact ⟨hmem, by omega⟩
  · rintro ⟨hmem, ⟨htwo, hfive⟩ | ⟨rfl, hlen⟩⟩
    · exact ⟨three_le_length hfive hmem, ⟨htwo, by omega⟩, hmem⟩
    · exact ⟨hlen, by decide, hmem⟩

/-- Of Saturday and Sunday alone it is asked how often they are listed. -/
theorem runToSunday?_weekend (hdays : days.toFinset = {0, 6}) :
    runToSunday? days = some 6 ↔ 3 ≤ days.length := by
  rw [runToSunday?_eq_some_iff_toFinset, hdays]
  simp

/-- **A run to Sunday is recognized by its days, but for Saturday and Sunday.**  A list has the first
day `start` exactly if its days are Sunday and those from `start` to Saturday, where `start` is one
from Tuesday to Friday, or Saturday if the list has three entries for its two days.  Two lists of
the same days are treated alike unless their days are Saturday and Sunday and only one of them has
three entries. -/
theorem runToSunday?_exact (days : List Nat) :
    (∀ start, runToSunday? days = some start ↔
      days.toFinset = insert 0 (Finset.Icc start 6) ∧
        (2 ≤ start ∧ start ≤ 5 ∨ start = 6 ∧ 3 ≤ days.length)) ∧
    ∀ others : List Nat, others.toFinset = days.toFinset →
      (runToSunday? others = runToSunday? days ↔
        (days.toFinset = {0, 6} → (3 ≤ others.length ↔ 3 ≤ days.length))) := by
  refine ⟨fun start => runToSunday?_eq_some_iff_toFinset, fun others hsame => ?_⟩
  constructor
  · intro heq hweekend
    rw [← runToSunday?_weekend hweekend, ← runToSunday?_weekend (hsame.trans hweekend), heq]
  · intro hlen
    refine Option.ext fun start => ?_
    rw [runToSunday?_eq_some_iff_toFinset, runToSunday?_eq_some_iff_toFinset, hsame]
    refine and_congr_right fun hrun => or_congr_right (and_congr_right fun hsix => hlen ?_)
    rw [hrun, hsix]
    rfl

/-- Friday to Sunday are a run in any order and however often a day is listed.  Saturday and Sunday
are one if three entries are listed. -/
theorem runToSunday?_exact_friday :
    runToSunday? [6, 0, 5, 6] = some 5 ∧ runToSunday? [0, 5, 6] = runToSunday? [6, 0, 5, 6] ∧
      runToSunday? [6, 0] ≠ runToSunday? [0, 6, 0] := by
  obtain ⟨hfirst, hothers⟩ := runToSunday?_exact [6, 0, 5, 6]
  refine ⟨(hfirst 5).mpr ⟨by decide, by decide⟩, ?_, fun heq => ?_⟩
  · exact (hothers [0, 5, 6] (by decide)).mpr fun hweekend => absurd hweekend (by decide)
  · have hlen := ((runToSunday?_exact [0, 6, 0]).2 [6, 0] (by decide)).mp heq (by decide)
    exact absurd (hlen.mpr (by decide)) (by decide)

/-- **Saturday and Sunday are taken for a run if Saturday is listed twice**, though not if each is
listed once, and though no day from Tuesday to Friday starts such a run. -/
theorem runToSunday?_repeated : runToSunday? [0, 6, 6] = some 6 ∧
    [0, 6, 6].toFinset = [0, 6].toFinset ∧ runToSunday? [0, 6] = none ∧
    ¬ ∃ start, (2 ≤ start ∧ start ≤ 5) ∧
      [0, 6, 6].toFinset = insert 0 (Finset.Icc start 6) := by
  refine ⟨by decide, by decide, by decide, ?_⟩
  rintro ⟨start, ⟨-, hfive⟩, hrun⟩
  have hfriday := (toFinset_eq_run_iff.mp hrun 5).mpr (Or.inr ⟨hfive, by decide⟩)
  exact absurd hfriday (by decide)

end Crontab
