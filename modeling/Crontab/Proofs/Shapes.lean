import Crontab.Phrase
import Crontab.Proofs.Invariant
import Mathlib.Data.List.Sublists

/-! # Descriptions tell sets apart

A shape says all of a list that it is made of: the bounds that it leaves out are those of its
style, and a step is only said of numbers that reach as far as it goes (`Shape.values_ofValues`).
Where nothing is said of a field it holds all there is.  So the lists of a schedule can be read off
its description again, and **schedules are described alike exactly if they have the same five
sets** (`Schedule.Bounded.description_eq_iff`).
-/

namespace Crontab

/-! ### Shapes of lists -/

variable {step a b : Nat} {ns : List Nat} {style : ShapeStyle}

/-- Numbers that go on by one step are settled by the first and by how many they are. -/
theorem eq_range'_of_risesBy : ∀ {a : Nat} {ns : List Nat},
    risesBy step (a :: ns) = true → a :: ns = List.range' a (ns.length + 1) step
  | a, [], _ => by simp
  | a, b :: rest, h => by
      rw [risesBy, Bool.and_eq_true, beq_iff_eq] at h
      obtain ⟨rfl, hrest⟩ := h
      rw [List.range'_succ, List.length_cons, ← eq_range'_of_risesBy hrest]

theorem getLast?_of_risesBy (h : risesBy step (a :: ns) = true) :
    (a :: ns).getLast? = some (a + step * ns.length) := by
  rw [eq_range'_of_risesBy h, List.range'_concat, List.getLast?_concat]

/-- A step settles the numbers that are described by it. -/
theorem eq_range'_of_step? (h : step? a b ns = some step) :
    ns = List.range' a ((b - a) / step + 1) step := by
  unfold step? at h
  split at h
  · rename_i first second rest
    extract_lets all inc at h
    split at h
    · rename_i hc
      obtain ⟨hpos, rfl, hrises, hlast⟩ := hc
      obtain rfl : inc = step := Option.some.inj h
      rw [getLast?_of_risesBy hrises, Option.some_inj] at hlast
      have hcount : (second :: rest).length = (b - first) / inc := by
        apply Nat.eq_of_mul_eq_mul_left hpos
        rw [Nat.mul_comm inc ((b - first) / inc)]
        omega
      rw [← hcount]
      exact eq_range'_of_risesBy hrises
    · cases h
  · cases h

/-- Numbers that go on by a step up to a bound are as far as a multiple of the step from the
first. -/
theorem mem_range'_step (hstep : 0 < step) (hab : a ≤ b) {n : Nat} :
    n ∈ List.range' a ((b - a) / step + 1) step ↔ n ≤ b ∧ ∃ k, n = a + k * step := by
  rw [List.mem_range']
  constructor
  · rintro ⟨k, hk, rfl⟩
    have hk' := (Nat.le_div_iff_mul_le hstep).mp (Nat.le_of_lt_succ hk)
    exact ⟨by rw [Nat.mul_comm step k]; omega, k, by rw [Nat.mul_comm]⟩
  · rintro ⟨hn, k, rfl⟩
    refine ⟨k, Nat.lt_succ_of_le ((Nat.le_div_iff_mul_le hstep).mpr (by omega)), ?_⟩
    rw [Nat.mul_comm]

/-- The ends of a run settle it. -/
theorem eq_range'_of_isRun (h : isRun (a :: ns) = true) :
    a :: ns = List.range' a (ns.getLastD a + 1 - a) := by
  rw [isRun, Bool.and_eq_true] at h
  have hlast := getLast?_of_risesBy h.2
  rw [List.getLast?_cons, Option.some_inj] at hlast
  rw [List.getLastD_eq_getLast?, hlast, eq_range'_of_risesBy h.2]
  congr 1
  omega

namespace Shape

/-- The numbers of a shape. -/
def values (style : ShapeStyle) : Shape → List Nat
  | single value => [value]
  | every step => List.range' style.least ((style.greatest - style.least) / step + 1) step
  | span first last => List.range' first (last + 1 - first)
  | each values => values

/-- A shape of numbers with a property.  One number alone is not said as a list. -/
def Of (p : Nat → Prop) : Shape → Prop
  | single value => p value
  | every _ => True
  | span first last => p first ∧ p last
  | each values => 2 ≤ values.length ∧ ∀ value ∈ values, p value

instance (p : Nat → Prop) [DecidablePred p] : ∀ shape : Shape, Decidable (shape.Of p)
  | single _ => inferInstanceAs (Decidable (p _))
  | every _ => isTrue trivial
  | span _ _ => inferInstanceAs (Decidable (_ ∧ _))
  | each _ => inferInstanceAs (Decidable (_ ∧ _))

/-- What a list of two or more numbers is described by. -/
theorem ofValues_cons_cons (style : ShapeStyle) (a b : Nat) (ns : List Nat) :
    (∃ step, step? style.least style.greatest (a :: b :: ns) = some step ∧
        ofValues style (a :: b :: ns) = every step) ∨
      isRun (a :: b :: ns) = true ∧
        ofValues style (a :: b :: ns) = span a ((b :: ns).getLastD a) ∨
      ofValues style (a :: b :: ns) = each (a :: b :: ns) := by
  unfold ofValues
  dsimp only
  split
  · rename_i step hstep
    exact Or.inl ⟨step, Option.eq_some_of_filter_eq_some hstep, rfl⟩
  · split
    · rename_i hrun
      exact Or.inr (Or.inl ⟨hrun.2, rfl⟩)
    · exact Or.inr (Or.inr rfl)

/-- **The shape of a list says all of it.** -/
theorem values_ofValues (style : ShapeStyle) : ∀ ns, (ofValues style ns).values style = ns
  | [] => rfl
  | [_] => rfl
  | a :: b :: ns => by
      rcases ofValues_cons_cons style a b ns with ⟨step, hstep, h⟩ | ⟨hrun, h⟩ | h
      · rw [h]
        exact (eq_range'_of_step? hstep).symm
      · rw [h]
        exact (eq_range'_of_isRun hrun).symm
      · rw [h]
        rfl

theorem of_ofValues {p : Nat → Prop} (hne : ns ≠ []) (hns : ∀ n ∈ ns, p n) :
    (ofValues style ns).Of p := by
  match ns, hne with
  | [n], _ => exact hns n (by simp)
  | a :: b :: ns, _ =>
    rcases ofValues_cons_cons style a b ns with ⟨step, -, h⟩ | ⟨-, h⟩ | h
    · rw [h]
      trivial
    · have hlast : (b :: ns).getLastD a ∈ b :: ns := by
        rw [List.getLastD_eq_getLast?, List.getLast?_cons]
        exact List.mem_of_getLast? (List.getLast?_cons ..)
      rw [h]
      exact ⟨hns a (by simp), hns _ (List.mem_cons_of_mem a hlast)⟩
    · rw [h]
      exact ⟨by simp, hns⟩

end Shape

/-! ### Descriptions of schedules -/

namespace WeekdayPhrase

/-- The weekdays that a phrase says. -/
def values : WeekdayPhrase → List Nat
  | workingDays => [1, 2, 3, 4, 5]
  | weekend => [0, 6]
  | days (.span first 0) => 0 :: List.range' first (7 - first)
  | days shape => shape.values ⟨0, 6, 0, 0⟩

/-- A phrase of weekdays that have a name. -/
def Of (p : Nat → Prop) : WeekdayPhrase → Prop
  | workingDays => True
  | weekend => True
  | days (.every _) => False
  | days shape => shape.Of p

instance (p : Nat → Prop) [DecidablePred p] : ∀ phrase : WeekdayPhrase, Decidable (phrase.Of p)
  | workingDays => isTrue trivial
  | weekend => isTrue trivial
  | days (.every _) => isFalse id
  | days (.single n) => inferInstanceAs (Decidable ((Shape.single n).Of p))
  | days (.span a b) => inferInstanceAs (Decidable ((Shape.span a b).Of p))
  | days (.each ns) => inferInstanceAs (Decidable ((Shape.each ns).Of p))

end WeekdayPhrase

namespace TimePhrase

/-- The minutes and the hours that a phrase says. -/
def values : TimePhrase → List Nat × List Nat
  | everyHour => ([0], List.range' 0 24)
  | hoursAlone hours => ([0], hours.values Description.hourStyle)
  | times minute hours => ([minute], hours)
  | clock minutes hours =>
    (minutes.elim (List.range' 0 60) (·.values Description.minuteStyle),
      hours.elim (List.range' 0 24) (·.values Description.hourStyle))

/-- A phrase of minutes and hours of the day. -/
def OfDay : TimePhrase → Prop
  | everyHour => True
  | hoursAlone hours => hours.Of (· < 24)
  | times minute hours => minute < 60 ∧ hours ≠ [] ∧ ∀ hour ∈ hours, hour < 24
  | clock minutes hours => (∀ shape ∈ minutes, shape.Of (· < 60)) ∧ ∀ shape ∈ hours, shape.Of (· < 24)

end TimePhrase

namespace Description

/-- All that a description says has a name. -/
structure Sayable (d : Description) : Prop where
  time : d.time.OfDay
  days : ∀ shape ∈ d.days, shape.Of fun day => 1 ≤ day ∧ day ≤ 31
  weekdays : ∀ phrase ∈ d.weekdays, phrase.Of (· < 7)
  months : ∀ shape ∈ d.months, shape.Of (· < 12)

variable {set minutes hours : FieldSet} {p : Nat → Prop}

/-- A set is what is said of it, or all there is if nothing is said. -/
theorem values_shapeUnlessFull (h : set.Between a b) (style : ShapeStyle) :
    (shapeUnlessFull style set).elim (List.range' a (b + 1 - a)) (·.values style) = set.toList := by
  unfold shapeUnlessFull
  split
  · rename_i hfull
    exact (h.isFull_iff_toList.mp hfull).symm
  · exact Shape.values_ofValues style set.toList

theorem toList_ne_nil (h : set.Between a b) : set.toList ≠ [] := by
  obtain ⟨n, hn⟩ := h.nonempty
  exact List.ne_nil_of_mem (h.mem_toList.mpr hn)

theorem of_shapeUnlessFull (h : set.Between a b) (hp : ∀ n, a ≤ n → n ≤ b → p n)
    (style : ShapeStyle) : ∀ shape ∈ shapeUnlessFull style set, shape.Of p := by
  unfold shapeUnlessFull
  split
  · simp
  · rintro _ ⟨⟩
    refine Shape.of_ofValues (toList_ne_nil h) fun n hn => ?_
    obtain ⟨ha, hb⟩ := h.bounds n (h.mem_toList.mp hn)
    exact hp n ha hb

/-- There are so few lists of weekdays that each of them can be looked at. -/
theorem ofWeekdayList_spec : ∀ days ∈ (List.range' 0 7).sublists, days ≠ [] →
    (ofWeekdayList days).values = days ∧ (ofWeekdayList days).Of (· < 7) := by
  decide +kernel

theorem ofWeekdays_spec (h : set.Between 0 6) :
    (ofWeekdays set).elim (List.range' 0 7) WeekdayPhrase.values = set.toList ∧
      ∀ phrase ∈ ofWeekdays set, phrase.Of (· < 7) := by
  have hsub : set.toList ∈ (List.range' 0 7).sublists := by
    rw [List.mem_sublists, FieldSet.toList, h.least_eq, h.greatest_eq]
    exact List.filter_sublist
  obtain ⟨hvalues, hof⟩ := ofWeekdayList_spec _ hsub (toList_ne_nil h)
  unfold ofWeekdays
  split
  · rename_i hfull
    exact ⟨(h.isFull_iff_toList.mp hfull).symm, by simp⟩
  · exact ⟨hvalues, by simpa using hof⟩

/-- **The phrase of a time of the day says all its minutes and hours.** -/
theorem ofTime_spec (hm : minutes.Between 0 59) (hh : hours.Between 0 23) :
    (ofTime minutes hours).values = (minutes.toList, hours.toList) ∧
      (ofTime minutes hours).OfDay := by
  have hclock : TimePhrase.values (.clock (shapeUnlessFull minuteStyle minutes)
      (shapeUnlessFull hourStyle hours)) = (minutes.toList, hours.toList) :=
    Prod.ext (values_shapeUnlessFull hm minuteStyle) (values_shapeUnlessFull hh hourStyle)
  have hclock' : TimePhrase.OfDay (.clock (shapeUnlessFull minuteStyle minutes)
      (shapeUnlessFull hourStyle hours)) :=
    ⟨of_shapeUnlessFull hm (fun _ _ hn => Nat.lt_succ_of_le hn) minuteStyle,
      of_shapeUnlessFull hh (fun _ _ hn => Nat.lt_succ_of_le hn) hourStyle⟩
  have hhour : ∀ hour ∈ hours.toList, hour < 24 := fun hour hhour =>
    Nat.lt_succ_of_le (hh.bounds hour (hh.mem_toList.mp hhour)).2
  have hne := toList_ne_nil hh
  unfold ofTime
  extract_lets hourList clock
  split
  · rename_i minute hminute
    have hlt : minute < 60 :=
      Nat.lt_succ_of_le (hm.bounds minute (hm.mem_toList.mp (by simp [hminute]))).2
    split
    · rename_i hfull
      obtain ⟨rfl, hfull⟩ := hfull
      exact ⟨Prod.ext hminute.symm (hh.isFull_iff_toList.mp hfull).symm, trivial⟩
    · split
      · rename_i hstep
        obtain ⟨rfl, -⟩ := hstep
        exact ⟨Prod.ext hminute.symm (Shape.values_ofValues hourStyle hours.toList),
          Shape.of_ofValues hne hhour⟩
      · split
        · exact ⟨Prod.ext hminute.symm rfl, hlt, hne, hhour⟩
        · exact ⟨hclock, hclock'⟩
  · exact ⟨hclock, hclock'⟩

end Description

namespace Schedule

variable {s t : Schedule}

/-- Two schedules with the same minutes, hours, days, months and weekdays. -/
structure SameSets (s t : Schedule) : Prop where
  minutes : ∀ n, n ∈ s.minutes ↔ n ∈ t.minutes
  hours : ∀ n, n ∈ s.hours ↔ n ∈ t.hours
  days : ∀ n, n ∈ s.days ↔ n ∈ t.days
  months : ∀ n, n ∈ s.months ↔ n ∈ t.months
  weekdays : ∀ n, n ∈ s.weekdays ↔ n ∈ t.weekdays

theorem Bounded.sayable (h : s.Bounded) : s.description.Sayable where
  time := (Description.ofTime_spec h.minutes h.hours).2
  days := Description.of_shapeUnlessFull h.days (fun _ h1 h31 => ⟨h1, h31⟩) _
  weekdays := (Description.ofWeekdays_spec h.weekdays).2
  months := Description.of_shapeUnlessFull h.months (fun _ _ hn => Nat.lt_succ_of_le hn) _

/-- Schedules that are described alike have the same five sets. -/
theorem Bounded.sameSets (hs : s.Bounded) (ht : t.Bounded) (h : s.description = t.description) :
    s.SameSets t := by
  have htime : Description.ofTime s.minutes s.hours = Description.ofTime t.minutes t.hours :=
    congrArg Description.time h
  have hdays : Description.shapeUnlessFull Description.dayStyle s.days =
      Description.shapeUnlessFull Description.dayStyle t.days := congrArg Description.days h
  have hmonths : Description.shapeUnlessFull Description.monthStyle s.months =
      Description.shapeUnlessFull Description.monthStyle t.months := congrArg Description.months h
  have hweekdays : Description.ofWeekdays s.weekdays = Description.ofWeekdays t.weekdays :=
    congrArg Description.weekdays h
  have hlists := congrArg TimePhrase.values htime
  rw [(Description.ofTime_spec hs.minutes hs.hours).1,
    (Description.ofTime_spec ht.minutes ht.hours).1, Prod.mk.injEq] at hlists
  refine ⟨hs.minutes.mem_congr ht.minutes hlists.1, hs.hours.mem_congr ht.hours hlists.2,
    hs.days.mem_congr ht.days ?_, hs.months.mem_congr ht.months ?_,
    hs.weekdays.mem_congr ht.weekdays ?_⟩
  · rw [← Description.values_shapeUnlessFull hs.days Description.dayStyle, hdays,
      Description.values_shapeUnlessFull ht.days Description.dayStyle]
  · rw [← Description.values_shapeUnlessFull hs.months Description.monthStyle, hmonths,
      Description.values_shapeUnlessFull ht.months Description.monthStyle]
  · rw [← (Description.ofWeekdays_spec hs.weekdays).1, hweekdays,
      (Description.ofWeekdays_spec ht.weekdays).1]

/-- **Schedules are described alike exactly if they have the same five sets.** -/
theorem Bounded.description_eq_iff (hs : s.Bounded) (ht : t.Bounded) :
    s.description = t.description ↔ s.SameSets t := by
  refine ⟨hs.sameSets ht, fun h => ?_⟩
  obtain ⟨hminutes, hminutes'⟩ := hs.minutes.listed_congr ht.minutes h.minutes
  obtain ⟨hhours, hhours'⟩ := hs.hours.listed_congr ht.hours h.hours
  obtain ⟨hdays, hdays'⟩ := hs.days.listed_congr ht.days h.days
  obtain ⟨hmonths, hmonths'⟩ := hs.months.listed_congr ht.months h.months
  obtain ⟨hweekdays, hweekdays'⟩ := hs.weekdays.listed_congr ht.weekdays h.weekdays
  simp only [description, Description.ofTime, Description.ofWeekdays,
    Description.shapeUnlessFull, *]

end Schedule

end Crontab
