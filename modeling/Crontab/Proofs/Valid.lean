import Crontab.Proofs.Filling
import Crontab.Calendar.DayCount
import Crontab.Schedule

/-! # Schedules that an expression describes

Reading an expression refuses whatever a search could not work with.  `Schedule.Valid` is
what is left: every field allows something and nothing outside its bounds, a bare star
allows everything, and some month of some year has one of the days.

**Every schedule that comes from an expression is valid** (`Schedule.valid_of_parse`).
The proof follows a field from its text to its set: every number that reading puts in lies
within the bounds, so the set holds nothing else (`FieldSet.Fresh`), and moving months and folding
Sunday take the bounds along.
-/

namespace Crontab

open Outcome

namespace FieldSet

/-- A set as it comes out of reading a field: it has the bounds of the field and keeps them,
and it is not empty. -/
structure Fresh (f : Field) (s : FieldSet) : Prop where
  least_eq : s.least = f.least
  greatest_eq : s.greatest = f.greatest
  bounds : ∀ n ∈ s, f.least ≤ n ∧ n ≤ f.greatest
  nonempty : ∃ n, n ∈ s

theorem mem_full {f : Field} {t : FieldSet} (h : full f = .ok t) {n : Nat} :
    n ∈ t ↔ f.least ≤ n ∧ n ≤ f.greatest := by
  rw [mem_insertAll? h, List.mem_range'_1]
  have := f.greatest_lt
  constructor
  · rintro (he | ⟨hm, -⟩)
    · exact absurd he (not_mem_empty f n)
    · omega
  · intro hn
    exact Or.inr ⟨by omega, by omega⟩

/-- **What reading a field yields.** -/
theorem fresh_of_read {f : Field} {text : List Char} {t : FieldSet} (h : read f text = .ok t) :
    t.Fresh f := by
  obtain ⟨⟨hleast, hgreatest⟩, hbounds⟩ : (t.least = f.least ∧ t.greatest = f.greatest) ∧
      ∀ n ∈ t, f.least ≤ n ∧ n ≤ f.greatest := by
    refine read_keeps (p := fun s => (s.least = f.least ∧ s.greatest = f.greatest) ∧
      ∀ n ∈ s, f.least ≤ n ∧ n ≤ f.greatest) (fun {s u n} hs hu => ?_)
      ⟨⟨rfl, rfl⟩, fun n hn => absurd hn (not_mem_empty f n)⟩ h
    obtain ⟨⟨hleast, hgreatest⟩, hbounds⟩ := hs
    obtain ⟨-, hleast', hgreatest'⟩ := field_insert? hu
    refine ⟨⟨hleast'.trans hleast, hgreatest'.trans hgreatest⟩, fun m hm => ?_⟩
    rcases (mem_insert? hu).mp hm with hm | ⟨rfl, -⟩
    · exact hbounds m hm
    · rw [← hleast, ← hgreatest]
      exact bounds_of_insert? hu
  refine ⟨hleast, hgreatest, hbounds, ?_⟩
  unfold read at h
  split at h
  · cases h
  · split at h
    · exact ⟨f.least, (mem_full h).mpr ⟨Nat.le_refl _, f.least_le_greatest⟩⟩
    · obtain ⟨set, -, h⟩ := bind_eq_ok.mp h
      split at h
      · cases h
      · rename_i hne
        cases h
        exact Classical.not_forall_not.mp (mt isEmpty_iff.mpr hne)

/-- A bare star allows whatever the field does. -/
theorem mem_of_read_star {f : Field} {t : FieldSet} (h : read f ['*'] = .ok t) {n : Nat} :
    n ∈ t ↔ f.least ≤ n ∧ n ≤ f.greatest :=
  mem_full h

@[simp] theorem mem_shiftDown {s : FieldSet} {amount n : Nat} :
    n ∈ s.shiftDown amount ↔ n + amount ∈ s := by
  simp [mem_def, shiftDown, Nat.add_comm]

@[simp] theorem mem_withGreatest {s : FieldSet} {greatest n : Nat} :
    n ∈ s.withGreatest greatest ↔ n ∈ s := Iff.rfl

/-- A set has no more members than the numbers among which they lie. -/
theorem size_le {s : FieldSet} {a b : Nat} (h : ∀ n ∈ s, a ≤ n ∧ n < b) : s.size ≤ b - a := by
  suffices key : ∀ k, (List.range k).countP (· ∈ s) ≤ min k b - a from
    Nat.le_trans (key 64) (Nat.sub_le_sub_right (Nat.min_le_right _ _) _)
  intro k
  induction k with
  | zero => simp
  | succ k ih =>
    rw [List.range_succ, List.countP_append, List.countP_singleton]
    by_cases hk : k ∈ s
    · have := h k hk
      simp only [hk, decide_true, ite_true]
      omega
    · simp only [hk, decide_false, Bool.false_eq_true, ite_false]
      omega

end FieldSet

namespace Schedule

/-- **A schedule that a search can work with.**  Every field allows something and keeps its
bounds, a field that is a bare star allows everything, and there is a date to wait for. -/
structure Valid (s : Schedule) : Prop where
  minute_le : ∀ n ∈ s.minutes, n ≤ 59
  hour_le : ∀ n ∈ s.hours, n ≤ 23
  day_bounds : ∀ n ∈ s.days, 1 ≤ n ∧ n ≤ 31
  month_le : ∀ n ∈ s.months, n ≤ 11
  weekday_le : ∀ n ∈ s.weekdays, n ≤ 6
  some_minute : ∃ n, n ∈ s.minutes
  some_hour : ∃ n, n ∈ s.hours
  some_weekday : ∃ n, n ∈ s.weekdays
  every_day : s.anyDay = true → ∀ n, 1 ≤ n → n ≤ 31 → n ∈ s.days
  every_weekday : s.anyWeekday = true → ∀ n, n ≤ 6 → n ∈ s.weekdays
  feasible : ∃ month ∈ s.months, ∃ day ∈ s.days, day ≤ longestMonth month

theorem mem_of_foldSunday {set folded : FieldSet} (h : foldSunday set = .ok folded) {n : Nat} :
    n ∈ folded ↔ n ∈ set ∧ n ≠ 7 ∨ n = 0 ∧ 7 ∈ set := by
  unfold foldSunday at h
  split at h
  · rename_i hseven
    obtain ⟨erased, he, h⟩ := bind_eq_ok.mp h
    obtain ⟨inserted, hi, h⟩ := bind_eq_ok.mp h
    cases h
    rw [FieldSet.mem_withGreatest, FieldSet.mem_insert? hi, FieldSet.mem_erase? he]
    constructor
    · rintro (hn | ⟨hn, -⟩)
      · exact Or.inl hn
      · exact Or.inr ⟨hn, hseven⟩
    · rintro (hn | ⟨hn, -⟩)
      · exact Or.inl hn
      · exact Or.inr ⟨hn, by omega⟩
  · rename_i hseven
    cases h
    rw [FieldSet.mem_withGreatest]
    constructor
    · intro hn
      exact Or.inl ⟨hn, fun he => hseven (he ▸ hn)⟩
    · rintro (⟨hn, -⟩ | ⟨-, hn⟩)
      · exact hn
      · exact absurd hn hseven

/-- What the check of days against months finds out, of sets that keep their bounds. -/
theorem exists_of_isFeasible {days months : FieldSet} (hdays : ∀ n ∈ days, 1 ≤ n ∧ n ≤ 31)
    (hmonths : ∀ n ∈ months, n ≤ 11) (hday : ∃ n, n ∈ days) (hmonth : ∃ n, n ∈ months)
    (h : isFeasible days months = true) :
    ∃ month ∈ months, ∃ day ∈ days, day ≤ longestMonth month := by
  simp only [isFeasible, Bool.or_eq_true, beq_iff_eq, List.any_eq_true, Option.any_eq_true,
    decide_eq_true_eq] at h
  rcases h with (h | h) | ⟨month, hm, day, hd, hle⟩
  · -- all days are allowed, so the first is, which every month has
    have hone : 1 ∈ days := by
      apply Classical.byContradiction
      intro hn
      have := FieldSet.size_le (a := 2) (b := 32) fun n hnd => by
        have := hdays n hnd
        have : n ≠ 1 := fun he => hn (he ▸ hnd)
        omega
      omega
    obtain ⟨month, hm⟩ := hmonth
    exact ⟨month, hm, 1, hone, Nat.le_trans (by decide) (Date.le_monthLength 2000 month)⟩
  · -- all months are allowed, so January is, which has every day
    have hzero : 0 ∈ months := by
      apply Classical.byContradiction
      intro hn
      have := FieldSet.size_le (a := 1) (b := 12) fun n hnm => by
        have := hmonths n hnm
        have : n ≠ 0 := fun he => hn (he ▸ hnm)
        omega
      omega
    obtain ⟨day, hd⟩ := hday
    exact ⟨0, hzero, day, hd, (hdays day hd).2⟩
  · exact ⟨month, (FieldSet.mem_toList.mp hm).2, day,
      ((FieldSet.next?_eq_some_iff.mp hd).1).1, hle⟩

theorem readField_eq_ok {f : Field} {text : List Char} {set : FieldSet} :
    readField f text = .ok set ↔ FieldSet.read f text = .ok set := mapError_eq_ok

theorem valid_of_ofFields {text : String} {minute hour day month weekday : List Char}
    {s : Schedule} (h : ofFields text minute hour day month weekday = .ok s) : s.Valid := by
  obtain ⟨minutes, hmin, h⟩ := bind_eq_ok.mp h
  obtain ⟨hours, hhour, h⟩ := bind_eq_ok.mp h
  obtain ⟨days, hday, h⟩ := bind_eq_ok.mp h
  obtain ⟨months, hmonth, h⟩ := bind_eq_ok.mp h
  obtain ⟨read, hread, h⟩ := bind_eq_ok.mp h
  obtain ⟨weekdays, hfold, h⟩ := bind_eq_ok.mp h
  rw [readField_eq_ok] at hmin hhour hday hmonth hread
  rw [mapError_eq_ok] at hfold
  have fmin := FieldSet.fresh_of_read hmin
  have fhour := FieldSet.fresh_of_read hhour
  have fday := FieldSet.fresh_of_read hday
  have fmonth := FieldSet.fresh_of_read hmonth
  have fweek := FieldSet.fresh_of_read hread
  have hmonths : ∀ n ∈ months.shiftDown 1, n ≤ 11 := fun n hn => by
    have := fmonth.bounds _ (FieldSet.mem_shiftDown.mp hn)
    simp only [Field.greatest] at this
    omega
  have hsome : ∃ n, n ∈ months.shiftDown 1 := by
    obtain ⟨n, hn⟩ := fmonth.nonempty
    have hb := fmonth.bounds n hn
    refine ⟨n - 1, FieldSet.mem_shiftDown.mpr ?_⟩
    rwa [show n - 1 + 1 = n by simp only [Field.least] at hb; omega]
  split at h
  · rename_i hfeasible
    cases h
    refine
      { minute_le := fun n hn => (fmin.bounds n hn).2
        hour_le := fun n hn => (fhour.bounds n hn).2
        day_bounds := fday.bounds
        month_le := hmonths
        weekday_le := ?_
        some_minute := fmin.nonempty
        some_hour := fhour.nonempty
        some_weekday := ?_
        every_day := ?_
        every_weekday := ?_
        feasible := exists_of_isFeasible fday.bounds hmonths fday.nonempty hsome hfeasible }
    · intro n hn
      rcases (mem_of_foldSunday hfold).mp hn with ⟨hn, hne⟩ | ⟨rfl, -⟩
      · have := (fweek.bounds n hn).2
        simp only [Field.greatest] at this
        omega
      · decide
    · obtain ⟨n, hn⟩ := fweek.nonempty
      by_cases hseven : n = 7
      · exact ⟨0, (mem_of_foldSunday hfold).mpr (Or.inr ⟨rfl, hseven ▸ hn⟩)⟩
      · exact ⟨n, (mem_of_foldSunday hfold).mpr (Or.inl ⟨hn, hseven⟩)⟩
    · intro hstar n h1 h31
      rw [of_decide_eq_true hstar] at hday
      exact (FieldSet.mem_of_read_star hday).mpr ⟨h1, h31⟩
    · intro hstar n hn
      rw [of_decide_eq_true hstar] at hread
      refine (mem_of_foldSunday hfold).mpr (Or.inl ⟨?_, by omega⟩)
      exact (FieldSet.mem_of_read_star hread).mpr ⟨Nat.zero_le n, Nat.le_succ_of_le hn⟩
  · cases h

/-- **Every schedule that comes from an expression is valid.** -/
theorem valid_of_parse {expression : String} {s : Schedule} (h : parse expression = .ok s) :
    s.Valid := by
  unfold parse at h
  extract_lets text at h
  split at h
  · cases h
  · split at h
    · exact valid_of_ofFields h
    · cases h

/-- Evaluation finds out whether an expression describes a schedule with a property. -/
theorem exists_of_parse (expression : String) (p : Schedule → Prop) [DecidablePred p]
    (h : (parse expression).toOption.any (fun s => decide (p s)) = true) :
    ∃ s, parse expression = .ok s ∧ p s := by
  cases hs : parse expression with
  | error e => simp [hs, Except.toOption] at h
  | ok s => exact ⟨s, rfl, by simpa [hs, Except.toOption] using h⟩

end Schedule

end Crontab
