import Crontab.Proofs.Shapes

/-! # Looking for shapes with numbers of a byte

What there is to say of a schedule is found with sums, products and differences of numbers below
256, with a quotient, and with the numbers at the ends of lists.  Here each of these is a step that
may fail: a number that gets too large or falls below zero (`Byte.add?` and the others), a quotient
by zero, the first number of an empty list (`Checked.span`).

**No step fails for a schedule that keeps its bounds** (`Checked.description_eq`).  The bounds of
its sets are far below 256, no set is empty, and a step is at least one where it is divided by.
-/

namespace Crontab

variable {a b n step : Nat} {ns : List Nat} {style : ShapeStyle} {set : FieldSet}

/-! ### Arithmetic of bytes -/

namespace Byte

/-- A sum, which has to be less than 256. -/
def add? (a b : Nat) : Option Nat := if a + b < 256 then some (a + b) else none

/-- A difference, which has to be no less than zero. -/
def sub? (a b : Nat) : Option Nat := if b ≤ a then some (a - b) else none

/-- A product, which has to be less than 256. -/
def mul? (a b : Nat) : Option Nat := if a * b < 256 then some (a * b) else none

/-- A quotient, by a number that has to be other than zero. -/
def div? (a b : Nat) : Option Nat := if b = 0 then none else some (a / b)

theorem add?_eq (h : a + b < 256) : add? a b = some (a + b) := if_pos h

theorem sub?_eq (h : b ≤ a) : sub? a b = some (a - b) := if_pos h

theorem mul?_eq (h : a * b < 256) : mul? a b = some (a * b) := if_pos h

theorem div?_eq (h : 0 < b) : div? a b = some (a / b) := if_neg (Nat.ne_of_gt h)

end Byte

namespace Checked

/-! ### What may fail -/

/-- Each number is one more than the one before. -/
def rises : List Nat → Option Bool
  | a :: b :: rest => do
    let next ← Byte.add? a 1
    if b = next then rises (b :: rest) else return false
  | _ => some true

/-- Two or more numbers, each one more than the one before. -/
def isRun (values : List Nat) : Option Bool :=
  if 2 ≤ values.length then rises values else some false

/-- The last number up to `greatest` that a step comes to from `least`. -/
def reach (least greatest step : Nat) : Option Nat := do
  let steps ← Byte.div? (← Byte.sub? greatest least) step
  Byte.add? least (← Byte.mul? steps step)

/-- The step of numbers that start at `least` and go on by the same step for as long as
`greatest` allows. -/
def step? (least greatest : Nat) : List Nat → Option (Option Nat)
  | first :: second :: rest =>
    let values := first :: second :: rest
    let step := second - first
    if 0 < step ∧ first = least ∧ risesBy step values then do
      let last ← reach least greatest step
      return if values.getLast? = some last then some step else none
    else some none
  | _ => some none

/-- The numbers are as many as a span has to have, and a run. -/
def isSpan (shortest : Nat) (values : List Nat) : Option Bool :=
  if shortest ≤ values.length then isRun values else some false

/-- The span from the first number of a list to the last. -/
def span (values : List Nat) : Option Shape := do
  return .span (← values.head?) (← values.getLast?)

/-- The shape that a list is described by. -/
def shape (style : ShapeStyle) (values : List Nat) : Option Shape :=
  match values with
  | [value] => some (.single value)
  | values => do
    let found ← step? style.least style.greatest values
    match found.filter fun _ => style.fewestSteps ≤ values.length with
    | some step => return .every step
    | none => if ← isSpan style.shortestSpan values then span values else return .each values

/-- The set has as many members as its bounds allow. -/
def isFull (set : FieldSet) : Option Bool := do
  return set.size == (← Byte.sub? set.greatest set.least) + 1

/-- The shape of a set, unless it holds all that it may. -/
def shapeUnlessFull (style : ShapeStyle) (set : FieldSet) : Option (Option Shape) := do
  if ← isFull set then return none else return some (← shape style set.toList)

/-- What there is to say of the time of the day. -/
def time (minutes hours : FieldSet) : Option TimePhrase := do
  let everyMinute ← isFull minutes
  let everyHour ← isFull hours
  let clock : Option TimePhrase := do
    return .clock (← shapeUnlessFull Description.minuteStyle minutes)
      (← shapeUnlessFull Description.hourStyle hours)
  if everyMinute && everyHour then return .clock none none
  else
    match minutes.toList with
    | [minute] =>
      if minute = 0 ∧ everyHour then return .everyHour
      else
        let cadence ← if minute = 0 then step? 0 23 hours.toList else some none
        if cadence.isSome then return .hoursAlone (← shape Description.hourStyle hours.toList)
        else if 1 ≤ hours.toList.length ∧ hours.toList.length ≤ 5 then
          return .times minute hours.toList
        else clock
    | _ => clock

/-- The shape of certain weekdays. -/
def weekdayList (days : List Nat) : Option WeekdayPhrase :=
  match days with
  | [day] => some (.days (.single day))
  | [1, 2, 3, 4, 5] => some .workingDays
  | [0, 6] => some .weekend
  | days =>
    match runToSunday? days with
    | some start => some (.days (.span start 0))
    | none => do if ← isRun days then return .days (← span days) else return .days (.each days)

/-- What there is to say of the weekdays. -/
def weekdays (set : FieldSet) : Option (Option WeekdayPhrase) := do
  if ← isFull set then return none else return some (← weekdayList set.toList)

/-- What there is to say of a schedule. -/
def description (s : Schedule) : Option Description := do
  let time ← time s.minutes s.hours
  let days ← shapeUnlessFull Description.dayStyle s.days
  let weekdays ← weekdays s.weekdays
  let months ← shapeUnlessFull Description.monthStyle s.months
  return { time, days, weekdays, months }

/-! ### Nothing fails -/

theorem rises_eq : ∀ {ns : List Nat}, (∀ n ∈ ns, n < 255) → rises ns = some (risesBy 1 ns)
  | [], _ => rfl
  | [_], _ => rfl
  | a :: b :: rest, h => by
      have ha : a + 1 < 256 := Nat.succ_lt_succ (h a (by simp))
      have hrest := rises_eq fun n hn => h n (List.mem_cons_of_mem a hn)
      rw [rises, Byte.add?_eq ha, Option.bind_eq_bind, Option.bind_some, risesBy]
      by_cases hb : b = a + 1
      · rw [if_pos hb, hrest, beq_iff_eq.mpr hb, Bool.true_and]
      · rw [if_neg hb, beq_eq_false_iff_ne.mpr hb, Bool.false_and]
        rfl

theorem isRun_eq (h : ∀ n ∈ ns, n < 255) : isRun ns = some (Crontab.isRun ns) := by
  unfold isRun Crontab.isRun
  by_cases hlen : 2 ≤ ns.length
  · rw [if_pos hlen, rises_eq h, decide_eq_true hlen, Bool.true_and]
  · rw [if_neg hlen, decide_eq_false hlen, Bool.false_and]

theorem reach_eq (hab : a ≤ b) (hb : b < 256) (hstep : 0 < step) :
    reach a b step = some (a + (b - a) / step * step) := by
  have hreach : (b - a) / step * step ≤ b - a := Nat.div_mul_le_self _ _
  simp only [reach, Byte.sub?_eq hab, Byte.div?_eq hstep, Option.bind_eq_bind, Option.bind_some]
  rw [Byte.mul?_eq (by omega), Option.bind_some, Byte.add?_eq (by omega)]

theorem step?_eq (hab : a ≤ b) (hb : b < 256) : step? a b ns = some (Crontab.step? a b ns) := by
  match ns with
  | [] => rfl
  | [_] => rfl
  | first :: second :: rest =>
    unfold step? Crontab.step?
    dsimp only
    by_cases hc : 0 < second - first ∧ first = a ∧
        risesBy (second - first) (first :: second :: rest) = true
    · obtain ⟨hpos, hfirst, hrises⟩ := hc
      rw [if_pos ⟨hpos, hfirst, hrises⟩, reach_eq hab hb hpos, Option.bind_eq_bind,
        Option.bind_some]
      by_cases hlast : (first :: second :: rest).getLast? =
          some (a + (b - a) / (second - first) * (second - first))
      · rw [if_pos hlast, if_pos ⟨hpos, hfirst, hrises, hlast⟩]
        rfl
      · rw [if_neg hlast, if_neg fun hall => hlast hall.2.2.2]
        rfl
    · rw [if_neg hc, if_neg fun hall => hc ⟨hall.1, hall.2.1, hall.2.2.1⟩]

theorem isSpan_eq (shortest : Nat) (h : ∀ n ∈ ns, n < 255) :
    isSpan shortest ns = some (decide (shortest ≤ ns.length ∧ Crontab.isRun ns = true)) := by
  unfold isSpan
  by_cases hlen : shortest ≤ ns.length
  · rw [if_pos hlen, isRun_eq h]
    simp [hlen]
  · rw [if_neg hlen]
    simp [hlen]

theorem span_eq (a : Nat) (ns : List Nat) :
    span (a :: ns) = some (.span a (ns.getLastD a)) := by
  rw [span, List.getLast?_cons, List.getLastD_eq_getLast?]
  rfl

/-- **Looking for a shape comes to the one that a list is described by**, if its numbers can be
counted on from. -/
theorem shape_eq (hstyle : style.least ≤ style.greatest ∧ style.greatest < 256)
    (h : ∀ n ∈ ns, n < 255) : shape style ns = some (Shape.ofValues style ns) := by
  match ns with
  | [] =>
    unfold shape
    dsimp only
    rw [step?_eq hstyle.1 hstyle.2, isSpan_eq _ h]
    simp [Crontab.step?, Crontab.isRun, Shape.ofValues]
  | [_] => rfl
  | a :: b :: rest =>
    unfold shape Shape.ofValues
    dsimp only
    rw [step?_eq hstyle.1 hstyle.2, isSpan_eq _ h, span_eq, Option.bind_eq_bind, Option.bind_some]
    cases (Crontab.step? style.least style.greatest (a :: b :: rest)).filter
      fun _ => style.fewestSteps ≤ (a :: b :: rest).length with
    | some step => rfl
    | none =>
      dsimp only
      rw [Option.bind_eq_bind, Option.bind_some]
      by_cases hspan : style.shortestSpan ≤ (a :: b :: rest).length ∧
          Crontab.isRun (a :: b :: rest) = true
      · rw [decide_eq_true hspan, if_pos hspan]
        rfl
      · rw [decide_eq_false hspan, if_neg hspan]
        rfl

theorem isFull_eq (h : set.Between a b) : isFull set = some set.isFull := by
  obtain ⟨n, hn⟩ := h.nonempty
  have hbounds := h.bounds n hn
  rw [isFull, Byte.sub?_eq (by rw [h.least_eq, h.greatest_eq]; omega)]
  rfl

theorem lt_of_mem_toList (h : set.Between a b) (hb : b < 255) : ∀ n ∈ set.toList, n < 255 :=
  fun n hn => Nat.lt_of_le_of_lt (h.bounds n (h.mem_toList.mp hn)).2 hb

theorem shapeUnlessFull_eq (h : set.Between style.least style.greatest)
    (hstyle : style.least ≤ style.greatest ∧ style.greatest < 255) :
    shapeUnlessFull style set = some (Description.shapeUnlessFull style set) := by
  have hshape := shape_eq ⟨hstyle.1, Nat.lt_succ_of_lt hstyle.2⟩ (lt_of_mem_toList h hstyle.2)
  unfold shapeUnlessFull Description.shapeUnlessFull
  rw [isFull_eq h, hshape]
  cases set.isFull <;> rfl

theorem weekdayList_eq (h : ∀ n ∈ ns, n < 255) :
    weekdayList ns = some (Description.ofWeekdayList ns) := by
  unfold Description.ofWeekdayList
  split
  · rfl
  · rfl
  · rfl
  · rename_i hone hworking hweekend
    unfold weekdayList
    split
    · exact absurd rfl (hone _)
    · exact absurd rfl hworking
    · exact absurd rfl hweekend
    · cases runToSunday? ns with
      | some start => rfl
      | none =>
        dsimp only
        rw [isRun_eq h]
        cases ns with
        | nil => rfl
        | cons first rest =>
          rw [span_eq]
          cases Crontab.isRun (first :: rest) <;> rfl

theorem weekdays_eq (h : set.Between 0 6) :
    weekdays set = some (Description.ofWeekdays set) := by
  unfold weekdays Description.ofWeekdays
  rw [isFull_eq h, weekdayList_eq (lt_of_mem_toList h (by decide))]
  cases set.isFull <;> rfl

/-- **Looking for what to say of the time comes to the phrase that it is described by.** -/
theorem time_eq {minutes hours : FieldSet} (hm : minutes.Between 0 59) (hh : hours.Between 0 23) :
    time minutes hours = some (Description.ofTime minutes hours) := by
  have hminutes : shapeUnlessFull Description.minuteStyle minutes = _ :=
    shapeUnlessFull_eq hm (by decide)
  have hhours : shapeUnlessFull Description.hourStyle hours = _ :=
    shapeUnlessFull_eq hh (by decide)
  have hshape : shape Description.hourStyle hours.toList = _ :=
    shape_eq (by decide) (lt_of_mem_toList hh (by decide))
  have hstep : step? 0 23 hours.toList = _ := step?_eq (by decide) (by decide)
  unfold time Description.ofTime
  rw [isFull_eq hm, isFull_eq hh, hminutes, hhours, hshape, hstep]
  simp only [Option.bind_eq_bind, Option.bind_some]
  by_cases hboth : (minutes.isFull && hours.isFull) = true
  · -- all minutes are more than one, so that both ways there is nothing to say
    obtain ⟨hmall, hhall⟩ := (Bool.and_eq_true _ _).mp hboth
    rw [if_pos hboth, hm.isFull_iff_toList.mp hmall, Description.shapeUnlessFull, if_pos hmall,
      Description.shapeUnlessFull, if_pos hhall]
    rfl
  · rw [if_neg hboth]
    match minutes.toList with
    | [] => rfl
    | [minute] =>
      by_cases hzero : minute = 0
      · simp only [hzero, true_and, if_true]
        split_ifs <;> rfl
      · simp only [hzero, false_and, if_false, Option.isSome_none, Bool.false_eq_true]
        split_ifs <;> rfl
    | _ :: _ :: _ => rfl

/-- **Looking for what to say of a schedule that keeps its bounds never fails.** -/
theorem description_eq {s : Schedule} (h : s.Bounded) : description s = some s.description := by
  rw [description, time_eq h.minutes h.hours, weekdays_eq h.weekdays,
    shapeUnlessFull_eq h.days (by decide), shapeUnlessFull_eq h.months (by decide)]
  rfl

end Checked

end Crontab
