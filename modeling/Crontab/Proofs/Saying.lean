import Crontab.Proofs.Legible

/-! # What each phrase says of its set

A phrase is not chosen by the numbers of a set alone: there are the fewest numbers that are said by
their step, the shortest run that is said by its ends, and weekdays that have a word of their own.
**Whichever phrase is chosen, it says exactly the set** (`Schedule.Bounded.means`).  A step is said
only of all the numbers that it goes through, a range only of all the numbers from one end to the
other or, for weekdays, on to Sunday, and a list has each number once and in ascending order.  What
is left out is a field that allows everything, or the first minute of the hour where hours are said
alone.

The numbers of a shape are those of the list that it was chosen for (`Shape.values_ofValues`), so
each case only has to be read off the numbers (`Shape.means_of_values`).  Hence in a language that
never says two things in the same words (`Language.Free`) the words settle the five sets.
-/

namespace Crontab

open English

variable {a b n step : Nat} {ns : List Nat} {style : ShapeStyle} {set minutes hours : FieldSet}

/-! ### Shapes -/

namespace Shape

/-- **What the shape says of a set** between the bounds of its style. -/
def Means (style : ShapeStyle) (set : FieldSet) : Shape → Prop
  | single value => ∀ n, n ∈ set ↔ n = value
  | every step => (0 < step ∧ style.least + step ≤ style.greatest) ∧
      ∀ n, n ∈ set ↔ n ≤ style.greatest ∧ ∃ k, n = style.least + k * step
  | span first last => ∀ n, n ∈ set ↔ first ≤ n ∧ n ≤ last
  | each values => values.Pairwise (· < ·) ∧ ∀ n, n ∈ set ↔ n ∈ values

/-- What is said of a set where nothing stands for all that it may hold. -/
def MeansOrAll (style : ShapeStyle) (set : FieldSet) : Option Shape → Prop
  | none => ∀ n, style.least ≤ n → n ≤ style.greatest → n ∈ set
  | some shape => shape.Means style set

/-- The step of numbers that keep a bound leads to one of them. -/
theorem step?_bounds (h : step? a b ns = some step) (hns : ∀ n ∈ ns, n ≤ b) :
    0 < step ∧ a + step ≤ b := by
  unfold step? at h
  split at h
  · rename_i first second rest
    extract_lets all inc at h
    split at h
    · rename_i hc
      obtain ⟨hpos, rfl, -⟩ := hc
      obtain rfl : inc = step := Option.some.inj h
      have := hns second (by simp)
      omega
    · cases h
  · cases h

/-- Only a list with a step is described by one. -/
theorem step?_of_ofValues : ∀ {ns : List Nat}, ofValues style ns = every step →
    step? style.least style.greatest ns = some step
  | [], h => by cases h
  | [_], h => by cases h
  | a :: b :: ns, h => by
      rcases ofValues_cons_cons style a b ns with ⟨step', hstep, h'⟩ | ⟨-, h'⟩ | h'
      · rw [h'] at h
        cases h
        exact hstep
      · rw [h'] at h
        cases h
      · rw [h'] at h
        cases h

/-- **A shape of the numbers of a set says what is in it.** -/
theorem means_of_values {shape : Shape} (h : set.Between a b)
    (hvalues : shape.values style = set.toList)
    (hstep : ∀ step, shape = every step → 0 < step ∧ style.least + step ≤ style.greatest) :
    shape.Means style set := by
  have hmem : ∀ n, n ∈ set ↔ n ∈ shape.values style := fun n => by rw [hvalues, h.mem_toList]
  cases shape with
  | single value => exact fun n => (hmem n).trans List.mem_singleton
  | every step =>
    obtain ⟨hpos, hle⟩ := hstep step rfl
    refine ⟨⟨hpos, hle⟩, fun n => ?_⟩
    rw [hmem, values, mem_range'_step hpos (by omega)]
  | span first last =>
    -- nothing would be between ends in the wrong order, but the set holds something
    obtain ⟨m, hm⟩ := h.nonempty
    have hlast := (hmem m).mp hm
    rw [values, List.mem_range'_1] at hlast
    intro n
    rw [hmem, values, List.mem_range'_1]
    omega
  | each values =>
    obtain rfl : values = set.toList := hvalues
    exact ⟨set.pairwise_toList, hmem⟩

theorem means_ofValues (h : set.Between style.least style.greatest) :
    (ofValues style set.toList).Means style set :=
  means_of_values h (values_ofValues style set.toList) fun _ hshape =>
    step?_bounds (step?_of_ofValues hshape) fun n hn => (h.bounds n (h.mem_toList.mp hn)).2

theorem meansOrAll_shapeUnlessFull (h : set.Between style.least style.greatest) :
    MeansOrAll style set (Description.shapeUnlessFull style set) := by
  unfold Description.shapeUnlessFull
  split
  · rename_i hfull
    exact h.isFull_iff.mp hfull
  · exact means_ofValues h

end Shape

/-! ### Weekdays and times -/

/-- **What the phrase says of the weekdays.** -/
def WeekdayPhrase.Means (set : FieldSet) : WeekdayPhrase → Prop
  | workingDays => ∀ n, n ∈ set ↔ 1 ≤ n ∧ n ≤ 5
  | weekend => ∀ n, n ∈ set ↔ n = 0 ∨ n = 6
  | days (.span first 0) => ∀ n, n ∈ set ↔ n = 0 ∨ first ≤ n ∧ n ≤ 6
  | days shape => shape.Means ⟨0, 6, 0, 0⟩ set

/-- What is said of the weekdays where nothing stands for all of them. -/
def WeekdayPhrase.MeansOrAll (set : FieldSet) : Option WeekdayPhrase → Prop
  | none => ∀ n ≤ 6, n ∈ set
  | some phrase => phrase.Means set

/-- **What the phrase says of the minutes and the hours.**  Hours that are said alone are said on
the hour. -/
def TimePhrase.Means (minutes hours : FieldSet) : TimePhrase → Prop
  | everyHour => (∀ n, n ∈ minutes ↔ n = 0) ∧ ∀ n ≤ 23, n ∈ hours
  | hoursAlone shape => (∀ n, n ∈ minutes ↔ n = 0) ∧ shape.Means Description.hourStyle hours
  | times minute values => (∀ n, n ∈ minutes ↔ n = minute) ∧
      values.Pairwise (· < ·) ∧ ∀ n, n ∈ hours ↔ n ∈ values
  | clock shape shape' => Shape.MeansOrAll Description.minuteStyle minutes shape ∧
      Shape.MeansOrAll Description.hourStyle hours shape'

theorem WeekdayPhrase.means_of_values {phrase : WeekdayPhrase} (h : set.Between 0 6)
    (hvalues : phrase.values = set.toList) (hof : phrase.Of (· < 7)) : phrase.Means set := by
  have hmem : ∀ n, n ∈ set ↔ n ∈ phrase.values := fun n => by rw [hvalues, h.mem_toList]
  -- but for the weekdays with a word of their own, the phrase says what its shape does
  have hshape : ∀ shape : Shape, shape.values ⟨0, 6, 0, 0⟩ = set.toList →
      (∀ step, shape ≠ .every step) → shape.Means ⟨0, 6, 0, 0⟩ set := fun shape hvalues hne =>
    Shape.means_of_values h hvalues fun step heq => absurd heq (hne step)
  match phrase with
  | workingDays =>
    intro n
    rw [hmem]
    simp only [values, List.mem_cons, List.not_mem_nil, or_false]
    omega
  | weekend => exact fun n => (hmem n).trans (by simp [values])
  | days (.every _) => exact hof.elim
  | days (.span first 0) =>
    intro n
    have hfirst : first < 7 := hof.1
    rw [hmem, values, List.mem_cons, List.mem_range'_1]
    omega
  | days (.single value) => exact hshape (.single value) hvalues nofun
  | days (.span first (last + 1)) => exact hshape (.span first (last + 1)) hvalues nofun
  | days (.each values) => exact hshape (.each values) hvalues nofun

theorem WeekdayPhrase.meansOrAll_ofWeekdays (h : set.Between 0 6) :
    MeansOrAll set (Description.ofWeekdays set) := by
  obtain ⟨hvalues, hof⟩ := Description.ofWeekdays_spec h
  unfold Description.ofWeekdays at hvalues hof ⊢
  split
  · rename_i hfull
    exact fun n => h.isFull_iff.mp hfull n (Nat.zero_le n)
  · rename_i hfull
    rw [if_neg hfull] at hvalues hof
    exact means_of_values h hvalues (hof _ rfl)

theorem TimePhrase.means_ofTime (hm : minutes.Between 0 59) (hh : hours.Between 0 23) :
    (Description.ofTime minutes hours).Means minutes hours := by
  have hclock : (clock (Description.shapeUnlessFull Description.minuteStyle minutes)
      (Description.shapeUnlessFull Description.hourStyle hours)).Means minutes hours :=
    ⟨Shape.meansOrAll_shapeUnlessFull hm, Shape.meansOrAll_shapeUnlessFull hh⟩
  unfold Description.ofTime
  extract_lets hourList
  split
  · rename_i minute hminute
    have honly : ∀ n, n ∈ minutes ↔ n = minute := fun n => by
      rw [← hm.mem_toList, hminute, List.mem_singleton]
    split
    · rename_i hhour
      obtain ⟨rfl, hfull⟩ := hhour
      exact ⟨honly, fun n => hh.isFull_iff.mp hfull n (Nat.zero_le n)⟩
    · split
      · rename_i hstep
        obtain ⟨rfl, -⟩ := hstep
        exact ⟨honly, Shape.means_ofValues hh⟩
      · split
        · exact ⟨honly, hours.pairwise_toList, fun n => hh.mem_toList.symm⟩
        · exact hclock
  · exact hclock

/-! ### Descriptions -/

/-- **What the description says of the five sets.** -/
structure Description.Means (d : Description) (s : Schedule) : Prop where
  time : d.time.Means s.minutes s.hours
  days : Shape.MeansOrAll dayStyle s.days d.days
  weekdays : WeekdayPhrase.MeansOrAll s.weekdays d.weekdays
  months : Shape.MeansOrAll monthStyle s.months d.months

/-- **Two things that have a name are never said in the same words.** -/
structure Language.Free (l : Language) : Prop where
  time : ∀ a b : TimePhrase, a.OfDay → b.OfDay → l.timePhrase a = l.timePhrase b → a = b
  days : ∀ a b : Shape, (a.Of fun n => 1 ≤ n ∧ n ≤ 31) → (b.Of fun n => 1 ≤ n ∧ n ≤ 31) →
    l.days a = l.days b → a = b
  weekdays : ∀ a b : WeekdayPhrase, a.Of (· < 7) → b.Of (· < 7) →
    l.weekdays a = l.weekdays b → a = b
  months : ∀ a b : Shape, a.Of (· < 12) → b.Of (· < 12) → l.months a = l.months b → a = b

theorem english_free : english.Free where
  time a b ha hb h := by
    have hnone : ∀ phrase ∈ (none : Option WeekdayPhrase), phrase.Of (· < 7) := nofun
    have hend : FollowsTime [] := followsTime_dayPart hnone none none
    exact (tells_timePhrase ha hb hend hend (by simp [h])).1
  days a b ha hb h := by
    rw [days_eq, days_eq] at h
    exact (clear_dayWords.tells ha hb breaks_nil breaks_nil (by simp [h])).1
  weekdays a b ha hb h := by
    rw [weekdays_eq ha, weekdays_eq hb, Option.some_inj] at h
    exact (tells_weekdayText ha hb breaks_nil breaks_nil (by simp [h])).1
  months a b ha hb h := by
    rw [months_eq ha, months_eq hb, Option.some_inj] at h
    exact (clear_monthWords.tells ha hb breaks_nil breaks_nil (by simp [h])).1

/-- What may be left out is told if all that may be said is. -/
theorem eq_of_map_eq {α β : Type} {f : α → β} {p : α → Prop}
    (hf : ∀ a b, p a → p b → f a = f b → a = b) {x y : Option α} (hx : ∀ a ∈ x, p a)
    (hy : ∀ b ∈ y, p b) (h : x.map f = y.map f) : x = y := by
  cases x with
  | none =>
    cases y with
    | none => rfl
    | some b => cases h
  | some a =>
    cases y with
    | none => cases h
    | some b => rw [hf a b (hx a rfl) (hy b rfl) (Option.some.inj h)]

/-- In a free language the words for the parts of a description settle it. -/
theorem Language.Free.eq_of_phrases {l : Language} (hl : l.Free) {d d' : Description}
    (h : d.Sayable) (h' : d'.Sayable) (htime : l.timePhrase d.time = l.timePhrase d'.time)
    (hdays : d.days.map l.days = d'.days.map l.days)
    (hweekdays : d.weekdays.map l.weekdays = d'.weekdays.map l.weekdays)
    (hmonths : d.months.map l.months = d'.months.map l.months) : d = d' := by
  cases d
  cases d'
  rw [Description.mk.injEq]
  exact ⟨hl.time _ _ h.time h'.time htime, eq_of_map_eq hl.days h.days h'.days hdays,
    eq_of_map_eq hl.weekdays h.weekdays h'.weekdays hweekdays,
    eq_of_map_eq hl.months h.months h'.months hmonths⟩

namespace Schedule

variable {s t : Schedule}

/-- **Each phrase says exactly the set of its field.** -/
theorem Bounded.means (h : s.Bounded) : s.description.Means s where
  time := TimePhrase.means_ofTime h.minutes h.hours
  days := Shape.meansOrAll_shapeUnlessFull h.days
  weekdays := WeekdayPhrase.meansOrAll_ofWeekdays h.weekdays
  months := Shape.meansOrAll_shapeUnlessFull h.months

/-- **What is said of an expression is exactly what it allows.**  In every language the words are
those for one description, and each phrase of it says exactly the set of its field: a step, a range
or a list, weekdays that have a word of their own, or times of the day.  In a language that never
says two things in the same words, expressions with the same words for the time, the days, the
weekdays and the months have the same five sets. -/
theorem description_exact :
    (∀ expression s, parse expression = .ok s →
      s.description.Means s ∧ ∀ l : Language, s.describe l = l.describe s.description) ∧
    ∀ l : Language, l.Free → ∀ expression expression' s t,
      parse expression = .ok s → parse expression' = .ok t →
      l.timePhrase s.description.time = l.timePhrase t.description.time →
      s.description.days.map l.days = t.description.days.map l.days →
      s.description.weekdays.map l.weekdays = t.description.weekdays.map l.weekdays →
      s.description.months.map l.months = t.description.months.map l.months →
      s.SameSets t := by
  refine ⟨fun expression s hs => ⟨(bounded_of_parse hs).means, fun l => rfl⟩, ?_⟩
  intro l hl expression expression' s t hs ht htime hdays hweekdays hmonths
  have hbs := bounded_of_parse hs
  have hbt := bounded_of_parse ht
  exact hbs.sameSets hbt
    (hl.eq_of_phrases hbs.sayable hbt.sayable htime hdays hweekdays hmonths)

/-- A step, a range, all days, the days from Friday on to Sunday and all months, in two spellings
that have the same words in English. -/
theorem description_exact_weekend : ∃ s t, parse "*/15 9-17 * * 5-7" = .ok s ∧
    parse "0,15,30,45 9-12,13-17 1-31 jan-dec fri,sat,sun" = .ok t ∧
    s.description = ⟨.clock (some (.every 15)) (some (.span 9 17)), none,
      some (.days (.span 5 0)), none⟩ ∧
    ((∀ n, n ∈ s.minutes ↔ n ≤ 59 ∧ ∃ k, n = 0 + k * 15) ∧
      (∀ n, n ∈ s.hours ↔ 9 ≤ n ∧ n ≤ 17) ∧ (∀ n, 1 ≤ n → n ≤ 31 → n ∈ s.days) ∧
      (∀ n, n ∈ s.weekdays ↔ n = 0 ∨ 5 ≤ n ∧ n ≤ 6) ∧ ∀ n ≤ 11, n ∈ s.months) ∧
    s.SameSets t := by
  let d : Description := ⟨.clock (some (.every 15)) (some (.span 9 17)), none,
    some (.days (.span 5 0)), none⟩
  obtain ⟨s, hs, hd⟩ := exists_of_parse "*/15 9-17 * * 5-7" (fun s => s.description = d)
    (by decide +kernel)
  obtain ⟨t, ht, hd'⟩ := exists_of_parse "0,15,30,45 9-12,13-17 1-31 jan-dec fri,sat,sun"
    (fun t => t.description = d) (by decide +kernel)
  have hmeans := (description_exact.1 _ _ hs).1
  rw [hd] at hmeans
  refine ⟨s, t, hs, ht, hd, ⟨hmeans.time.1.2, hmeans.time.2, hmeans.days, hmeans.weekdays,
    fun n => hmeans.months n (Nat.zero_le n)⟩, ?_⟩
  refine description_exact.2 english english_free _ _ s t hs ht ?_ ?_ ?_ ?_
  all_goals rw [hd, hd']

end Schedule

end Crontab
