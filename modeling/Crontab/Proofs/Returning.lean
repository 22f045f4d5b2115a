import Crontab.Proofs.ByteShapes
import Crontab.Proofs.Saying

/-! # Every description returns

A language need not have words for every number.  `PartialLanguage` says from which calls one
returns, and its words for a schedule are there if it returns from every call that it gets, every
name is looked up within its table, and nothing fails in looking for what to say
(`PartialLanguage.describe`).

**A language that returns wherever the numbers lie within their field has words for every
expression**, and they are those of the language that always returns
(`PartialLanguage.describe_returns`).  What is said of a set never leaves its bounds
(`Shape.Means.keeps`), so the language is not asked for any other number
(`PartialLanguage.Covers.wording_eq`), and there is a name for all that is said
(`Language.exists_months`, `Language.exists_weekdays`).  English takes twelve off an hour only where
the hour has as much, and returns from every call (`English.hour?_eq`, `English.time?_eq`).
-/

namespace Crontab

variable {n : Nat} {ns : List Nat} {style : ShapeStyle} {set : FieldSet}

/-! ### What is said keeps its bounds -/

/-- The numbers of a shape lie between the bounds of its style, and its step leads from one bound
no further than to the other. -/
def Shape.Keeps (style : ShapeStyle) : Shape → Prop
  | single value => style.least ≤ value ∧ value ≤ style.greatest
  | every step => 0 < step ∧ style.least + step ≤ style.greatest
  | span first last => (style.least ≤ first ∧ first ≤ style.greatest) ∧
      style.least ≤ last ∧ last ≤ style.greatest
  | each values => ∀ value ∈ values, style.least ≤ value ∧ value ≤ style.greatest

/-- **What is said of a set that keeps its bounds keeps them as well.** -/
theorem Shape.Means.keeps {shape : Shape} (h : shape.Means style set)
    (hset : set.Between style.least style.greatest) : shape.Keeps style := by
  cases shape with
  | single value => exact hset.bounds value ((h value).mpr rfl)
  | every step => exact h.1
  | span first last =>
    -- the set holds something, so its ends are in the right order and belong to it
    obtain ⟨n, hn⟩ := hset.nonempty
    obtain ⟨hfirst, hlast⟩ := (h n).mp hn
    have hle := Nat.le_trans hfirst hlast
    exact ⟨hset.bounds first ((h first).mpr ⟨Nat.le_refl _, hle⟩),
      hset.bounds last ((h last).mpr ⟨hle, Nat.le_refl _⟩)⟩
  | each values => exact fun value hvalue => hset.bounds value ((h.2 value).mpr hvalue)

theorem Shape.MeansOrAll.keeps {said : Option Shape} (h : Shape.MeansOrAll style set said)
    (hset : set.Between style.least style.greatest) : ∀ shape ∈ said, shape.Keeps style := by
  rintro shape ⟨⟩
  exact Shape.Means.keeps h hset

/-! ### Languages that may not return -/

/-- The calls of a language with numbers. -/
inductive Call where
  | everyMinutes (step : Nat)
  | everyHours (step : Nat)
  | everyDays (step : Nat)
  | everyMonths (step : Nat)
  | atMinute (minute : Nat)
  | minuteSpan (first last : Nat)
  | ordinal (day : Nat)
  | hour (hour : Nat)
  | time (hour minute : Nat)
  deriving DecidableEq

/-- The number lies between the bounds of the field. -/
def Field.Has (f : Field) (n : Nat) : Prop := f.least ≤ n ∧ n ≤ f.greatest

instance (f : Field) (n : Nat) : Decidable (f.Has n) := inferInstanceAs (Decidable (_ ∧ _))

namespace Call

/-- The numbers of the call lie between the bounds of their fields. -/
def InRange : Call → Prop
  | everyMinutes step => Field.minute.Has step
  | everyHours step => Field.hour.Has step
  | everyDays step => Field.day.Has step
  | everyMonths step => Field.month.Has step
  | atMinute minute => Field.minute.Has minute
  | minuteSpan first last => Field.minute.Has first ∧ Field.minute.Has last
  | ordinal day => Field.day.Has day
  | hour h => Field.hour.Has h
  | time h minute => Field.hour.Has h ∧ Field.minute.Has minute

instance : DecidablePred InRange := fun c => by
  cases c <;> unfold InRange <;> infer_instance

/-- What a language says if it is called. -/
def text (l : Language) : Call → String
  | everyMinutes step => l.everyMinutes step
  | everyHours step => l.everyHours step
  | everyDays step => l.everyDays step
  | everyMonths step => l.everyMonths step
  | atMinute minute => l.atMinute minute
  | minuteSpan first last => l.minuteSpan first last
  | ordinal day => l.ordinal day
  | hour h => l.hour h
  | time h minute => l.time h minute

end Call

/-- The words for certain numbers, by the calls for one of them and for a step, and by what is said
of a list and of a span. -/
def Language.numbers (l : Language) (one step : Nat → Call) (listed : String → String)
    (spanned : String → String → String) : Shape → String
  | .single value => listed ((one value).text l)
  | .every inc => (step inc).text l
  | .span first last => spanned ((one first).text l) ((one last).text l)
  | .each values => listed (l.listing (values.map fun value => (one value).text l))

/-- A language that may not return from some of its calls. -/
structure PartialLanguage where
  /-- What it says where it returns. -/
  words : Language
  /-- The calls that it returns from. -/
  returns : Call → Bool

namespace PartialLanguage

variable (l : PartialLanguage)

/-- **The language returns wherever the numbers lie within their field.** -/
def Covers : Prop := ∀ c : Call, c.InRange → l.returns c = true

/-- What a call comes to. -/
def call (c : Call) : Option String := if l.returns c then some (c.text l.words) else none

/-- The words for certain minutes. -/
def minutes : Option Shape → Option String
  | none => some l.words.everyMinute
  | some (.single minute) => l.call (.atMinute minute)
  | some (.every step) => l.call (.everyMinutes step)
  | some (.span first last) => l.call (.minuteSpan first last)
  | some (.each values) => some (l.words.atMinutes (l.words.listing (values.map toString)))

/-- The words for certain numbers, where each of the calls has to return. -/
def numbers (one step : Nat → Call) (listed : String → String)
    (spanned : String → String → String) : Shape → Option String
  | .single value => do return listed (← l.call (one value))
  | .every inc => l.call (step inc)
  | .span first last => do return spanned (← l.call (one first)) (← l.call (one last))
  | .each values => do
    return listed (l.words.listing (← values.mapM fun value => l.call (one value)))

/-- The words for certain hours. -/
def hours : Shape → Option String := l.numbers .hour .everyHours l.words.atHours l.words.hourSpan

/-- The words for a time of the day. -/
def timePhrase : TimePhrase → Option String
  | .everyHour => some l.words.everyHour
  | .hoursAlone shape => l.hours shape
  | .times minute values => do
    return l.words.atTimes
      (l.words.listing (← values.mapM fun hour => l.call (.time hour minute)))
  | .clock shape none => l.minutes shape
  | .clock shape (some shape') => do return (← l.minutes shape) ++ ", " ++ (← l.hours shape')

/-- The words for certain days of the month. -/
def days : Shape → Option String := l.numbers .ordinal .everyDays l.words.onDays l.words.daySpan

/-- The words for certain months. -/
def months : Shape → Option String
  | .every step => l.call (.everyMonths step)
  | shape => l.words.months shape

/-- The words for a description. -/
def wording (d : Description) : Option String := do
  let time ← l.timePhrase d.time
  let days ← d.days.mapM l.days
  let weekdays ← d.weekdays.mapM l.words.weekdays
  let months ← d.months.mapM l.months
  match l.words.eitherDay days weekdays, months with
  | some days, some months => return time ++ ", " ++ days ++ " " ++ months
  | some part, none => return time ++ ", " ++ part
  | none, some part => return time ++ ", " ++ part
  | none, none => return time

/-- The words for a schedule. -/
def describe (s : Schedule) : Option String := do l.wording (← Checked.description s)

variable {l}

theorem Covers.call_eq (hl : l.Covers) {c : Call} (hc : c.InRange) :
    l.call c = some (c.text l.words) := if_pos (hl c hc)

/-- Calls for the numbers of a list return if the one for each of them does. -/
theorem Covers.mapM_call_eq (hl : l.Covers) {c : Nat → Call} (h : ∀ n ∈ ns, (c n).InRange) :
    (ns.mapM fun n => l.call (c n)) = some (ns.map fun n => (c n).text l.words) :=
  mapM_eq_some_map fun n hn => hl.call_eq (h n hn)

theorem Covers.minutes_eq (hl : l.Covers) {said : Option Shape}
    (h : ∀ shape ∈ said, shape.Keeps Description.minuteStyle) :
    l.minutes said = some (l.words.minutes said) := by
  match said with
  | none => rfl
  | some (.single minute) => exact hl.call_eq (c := .atMinute minute) (h _ rfl)
  | some (.every step) =>
    have hle : 0 + step ≤ 59 := (h _ rfl).2
    have hstep : step ≤ 59 := by omega
    exact hl.call_eq (c := .everyMinutes step) ⟨Nat.zero_le step, hstep⟩
  | some (.span first last) => exact hl.call_eq (c := .minuteSpan first last) (h _ rfl)
  | some (.each values) => rfl

/-- **Numbers are said as the language that always returns would say them**, if the calls for them
and for their steps lie within their fields. -/
theorem Covers.numbers_eq (hl : l.Covers) {shape : Shape} (h : shape.Keeps style)
    {one step : Nat → Call} {listed : String → String} {spanned : String → String → String}
    (hone : ∀ n, style.least ≤ n ∧ n ≤ style.greatest → (one n).InRange)
    (hstep : ∀ n, 0 < n ∧ style.least + n ≤ style.greatest → (step n).InRange) :
    l.numbers one step listed spanned shape =
      some (l.words.numbers one step listed spanned shape) := by
  cases shape with
  | single value =>
    rw [numbers, hl.call_eq (hone value h)]
    rfl
  | every inc => exact hl.call_eq (hstep inc h)
  | span first last =>
    rw [numbers, hl.call_eq (hone first h.1), hl.call_eq (hone last h.2)]
    rfl
  | each values =>
    rw [numbers, hl.mapM_call_eq fun n hn => hone n (h n hn)]
    rfl

theorem Covers.hours_eq (hl : l.Covers) {shape : Shape} (h : shape.Keeps Description.hourStyle) :
    l.hours shape = some (l.words.hours shape) := by
  have hstep : ∀ n, 0 < n ∧ 0 + n ≤ 23 → Field.hour.Has n := fun n hn =>
    ⟨Nat.zero_le n, Nat.le_trans (Nat.le_add_left n 0) hn.2⟩
  have hwords : l.words.hours shape =
      l.words.numbers .hour .everyHours l.words.atHours l.words.hourSpan shape := by
    cases shape <;> rfl
  rw [hwords]
  exact hl.numbers_eq h (fun _ hn => hn) hstep

theorem Covers.timePhrase_eq (hl : l.Covers) {ms hs : FieldSet} {time : TimePhrase}
    (hm : ms.Between 0 59) (hh : hs.Between 0 23) (h : time.Means ms hs) :
    l.timePhrase time = some (l.words.timePhrase time) := by
  match time with
  | .everyHour => rfl
  | .hoursAlone shape => exact hl.hours_eq (h.2.keeps hh)
  | .times minute values =>
    have hminute : Field.minute.Has minute := hm.bounds minute ((h.1 minute).mpr rfl)
    have hcall : ∀ hour ∈ values, (Call.time hour minute).InRange := fun hour hhour =>
      ⟨hh.bounds hour ((h.2.2 hour).mpr hhour), hminute⟩
    rw [timePhrase, hl.mapM_call_eq (c := fun hour => .time hour minute) hcall]
    rfl
  | .clock shape none => exact hl.minutes_eq (h.1.keeps hm)
  | .clock shape (some shape') =>
    rw [timePhrase, hl.minutes_eq (h.1.keeps hm), hl.hours_eq (h.2.keeps hh _ rfl)]
    rfl

theorem Covers.days_eq (hl : l.Covers) {shape : Shape} (h : shape.Keeps Description.dayStyle) :
    l.days shape = some (l.words.days shape) := by
  have hstep : ∀ n, 0 < n ∧ 1 + n ≤ 31 → Field.day.Has n := fun n hn =>
    ⟨hn.1, Nat.le_trans (Nat.le_add_left n 1) hn.2⟩
  have hwords : l.words.days shape =
      l.words.numbers .ordinal .everyDays l.words.onDays l.words.daySpan shape := by
    cases shape <;> rfl
  rw [hwords]
  exact hl.numbers_eq h (fun _ hn => hn) hstep

theorem Covers.months_eq (hl : l.Covers) {shape : Shape}
    (h : shape.Keeps Description.monthStyle) : l.months shape = l.words.months shape := by
  cases shape with
  | every step =>
    have hle : 0 + step ≤ 11 := h.2
    have hstep : step ≤ 12 := by omega
    exact hl.call_eq (c := .everyMonths step) ⟨h.1, hstep⟩
  | _ => rfl

/-- **What is said of a schedule is never more than the language returns from.** -/
theorem Covers.wording_eq (hl : l.Covers) {s : Schedule} {d : Description} (hs : s.Bounded)
    (h : d.Means s) : l.wording d = l.words.describe d := by
  have htime := hl.timePhrase_eq hs.minutes hs.hours h.time
  have hdays : d.days.mapM l.days = some (d.days.map l.words.days) := by
    cases hsaid : d.days with
    | none => rfl
    | some shape =>
      rw [Option.mapM_some, hl.days_eq (h.days.keeps hs.days shape hsaid)]
      rfl
  have hmonths : d.months.mapM l.months = d.months.mapM l.words.months := by
    cases hsaid : d.months with
    | none => rfl
    | some shape =>
      rw [Option.mapM_some, Option.mapM_some,
        hl.months_eq (h.months.keeps hs.months shape hsaid)]
  rw [wording, htime, hdays, hmonths]
  rfl

end PartialLanguage

/-! ### Names -/

namespace Language

variable {k : Nat} (l : Language)

theorem exists_name (names : Vector String k) (h : n < k) : ∃ name, names[n]? = some name :=
  ⟨names[n], Vector.getElem?_eq_getElem h⟩

theorem exists_names (names : Vector String k) (h : ∀ n ∈ ns, n < k) :
    ∃ items, ns.mapM (names[·]?) = some items := by
  have hname : ∀ n ∈ ns, names[n]? = some (names[n]?.getD "") := fun n hn => by
    obtain ⟨name, hname⟩ := exists_name names (h n hn)
    rw [hname]
    rfl
  exact ⟨_, mapM_eq_some_map hname⟩

/-- Every month has a name. -/
theorem exists_months {shape : Shape} (h : shape.Of (· < 12)) :
    ∃ text, l.months shape = some text := by
  cases shape with
  | single month =>
    obtain ⟨name, hname⟩ := exists_name l.monthNames h
    simp [months, hname]
  | every step => exact ⟨_, rfl⟩
  | span first last =>
    obtain ⟨name, hname⟩ := exists_name l.monthNames h.1
    obtain ⟨name', hname'⟩ := exists_name l.monthNames h.2
    simp [months, hname, hname']
  | each values =>
    obtain ⟨items, hitems⟩ := exists_names l.monthNames h.2
    simp [months, hitems]

/-- Every weekday has a name, and one for when it comes back every week. -/
theorem exists_weekdays {phrase : WeekdayPhrase} (h : phrase.Of (· < 7)) :
    ∃ text, l.weekdays phrase = some text := by
  match phrase with
  | .workingDays => exact ⟨_, rfl⟩
  | .weekend => exact ⟨_, rfl⟩
  | .days (.every _) => exact h.elim
  | .days (.single day) =>
    obtain ⟨name, hname⟩ := exists_name l.weekdayPlurals h
    simp [weekdays, hname]
  | .days (.span first last) =>
    obtain ⟨name, hname⟩ := exists_name l.weekdayNames h.1
    obtain ⟨name', hname'⟩ := exists_name l.weekdayNames h.2
    simp [weekdays, hname, hname']
  | .days (.each values) =>
    obtain ⟨items, hitems⟩ := exists_names l.weekdayPlurals h.2
    simp [weekdays, hitems]

/-- Whatever may be left out has words if each thing that may be said has. -/
theorem exists_mapM {α : Type} {f : α → Option String} {said : Option α}
    (h : ∀ a ∈ said, ∃ text, f a = some text) : ∃ part, said.mapM f = some part := by
  cases said with
  | none => exact ⟨none, rfl⟩
  | some a =>
    obtain ⟨text, htext⟩ := h a rfl
    exact ⟨some text, by rw [Option.mapM_some, htext]; rfl⟩

/-- **All that a description says has words** in every language. -/
theorem exists_describe {d : Description} (h : d.Sayable) : ∃ text, l.describe d = some text := by
  obtain ⟨weekdays, hweekdays⟩ := exists_mapM fun phrase hsaid =>
    l.exists_weekdays (h.weekdays phrase hsaid)
  obtain ⟨months, hmonths⟩ := exists_mapM fun shape hsaid =>
    l.exists_months (h.months shape hsaid)
  rw [describe, hweekdays, hmonths]
  simp only [Option.bind_eq_bind, Option.bind_some]
  split <;> exact ⟨_, rfl⟩

end Language

/-! ### English -/

namespace English

/-- An hour of the day. -/
def hour? (h : Nat) : Option String :=
  if h = 0 then some "12 AM"
  else if h = 12 then some "12 PM"
  else if h < 12 then some (toString h ++ " AM")
  else do return toString (← Byte.sub? h 12) ++ " PM"

/-- The hour that the dial shows. -/
def onDial? (h : Nat) : Option Nat :=
  if h = 0 then some 12 else if 13 ≤ h ∧ h ≤ 23 then Byte.sub? h 12 else some h

/-- A time of the day. -/
def time? (h minute : Nat) : Option String := do
  let half := if h < 12 then "AM" else "PM"
  return toString (← onDial? h) ++ ":" ++ twoDigits minute ++ " " ++ half

/-- There is something to say of every hour, within the day or not. -/
theorem hour?_eq (h : Nat) : hour? h = some (hour h) := by
  unfold hour? hour
  by_cases hnoon : 12 ≤ h
  · rw [Byte.sub?_eq hnoon]
    split_ifs <;> rfl
  · have hmorning : h < 12 := Nat.lt_of_not_le hnoon
    simp only [hmorning, if_true]
    split_ifs <;> rfl

theorem onDial?_eq (h : Nat) :
    onDial? h = some (if h = 0 then 12 else if 13 ≤ h ∧ h ≤ 23 then h - 12 else h) := by
  unfold onDial?
  split_ifs with hzero hdial
  · rfl
  · exact Byte.sub?_eq (by omega)
  · rfl

/-- There is something to say of every time, within the day or not. -/
theorem time?_eq (h minute : Nat) : time? h minute = some (time h minute) := by
  rw [time?, onDial?_eq]
  rfl

end English

/-! ### Descriptions -/

namespace PartialLanguage

/-- **A description always returns.**  A language that returns wherever the numbers lie within
their field returns with words for every expression.  No arithmetic on the way leaves the numbers
of a byte, no list is empty where its ends are asked for, no name is missing, and the words are
those of the language that always returns.  English returns from its words for every hour and every
time, within the day or not. -/
theorem describe_returns :
    (∀ (expression : String) (s : Schedule) (l : PartialLanguage),
      Schedule.parse expression = .ok s → l.Covers →
      ∃ text, l.describe s = some text ∧ s.describe l.words = some text) ∧
    (∀ h, English.hour? h = some (English.hour h)) ∧
    ∀ h minute, English.time? h minute = some (English.time h minute) := by
  refine ⟨fun expression s l hs hl => ?_, English.hour?_eq, English.time?_eq⟩
  have hb := Schedule.bounded_of_parse hs
  obtain ⟨text, htext⟩ := l.words.exists_describe hb.sayable
  refine ⟨text, ?_, htext⟩
  rw [describe, Checked.description_eq hb, Option.bind_eq_bind, Option.bind_some,
    hl.wording_eq hb hb.means, htext]

/-- The language that returns only where the numbers lie within their field. -/
def strict (words : Language) : PartialLanguage := ⟨words, fun c => decide c.InRange⟩

theorem strict_covers (words : Language) : (strict words).Covers := fun _ hc => decide_eq_true hc

/-- Strict English has words for two times on a weekend in February, and none for the hour after
the last. -/
theorem describe_returns_february : ∃ s, Schedule.parse "5 22-23 * 2 fri-7" = .ok s ∧
    (strict english).describe s =
      some "At 10:05 PM or 11:05 PM, on Friday through Sunday in February" ∧
    (strict english).call (.hour 24) = none := by
  obtain ⟨s, hs, htext⟩ := Schedule.exists_of_parse "5 22-23 * 2 fri-7"
    (fun s => s.describe english =
      some "At 10:05 PM or 11:05 PM, on Friday through Sunday in February") (by decide +kernel)
  obtain ⟨text, hdescribe, hwords⟩ :=
    describe_returns.1 _ s (strict english) hs (strict_covers english)
  refine ⟨s, hs, ?_, by decide⟩
  rw [hdescribe, ← hwords]
  exact htext

end PartialLanguage

end Crontab
