import Crontab.Proofs.EnglishWords

/-! # English descriptions can be read back

A description in English says a time and then, after a comma, the days and the months, each of which
may be left out.  What is left out shows, since what comes next begins with other words, so a
reader who knows what has been said so far knows what comes next.  Hence **two descriptions of which
all has a name have the same wording only if they are the same** (`Description.eq_of_describe_eq`).
-/

namespace Crontab

open English

/-! ### The wording of each part -/

theorem minutes_some (shape : Shape) : english.minutes (some shape) = minuteWords.text shape := by
  cases shape <;> rfl

theorem hours_eq (shape : Shape) : english.hours shape = hourWords.text shape := by
  cases shape <;> rfl

theorem days_eq (shape : Shape) : english.days shape = dayWords.text shape := by
  cases shape <;> rfl

theorem mapM_eq_some_map {α β : Type} {f : α → Option β} {g : α → β} :
    ∀ {xs : List α}, (∀ x ∈ xs, f x = some (g x)) → xs.mapM f = some (xs.map g)
  | [], _ => rfl
  | x :: xs, h => by
      rw [List.mapM_cons, h x List.mem_cons_self,
        mapM_eq_some_map fun y hy => h y (List.mem_cons_of_mem x hy)]
      rfl

theorem monthNames_eq : ∀ n < 12, english.monthNames[n]? = some (monthName n) := by
  decide

theorem weekdayNames_eq : ∀ n < 7, english.weekdayNames[n]? = some (weekdayName n) := by
  decide

theorem weekdayPlurals_eq : ∀ n < 7, english.weekdayPlurals[n]? = some (weekdayPlural n) := by
  decide

/-- Months that have a name have a wording. -/
theorem months_eq {shape : Shape} (h : shape.Of (· < 12)) :
    english.months shape = some (monthWords.text shape) := by
  cases shape with
  | single n =>
    simp only [Language.months, monthNames_eq n h]
    rfl
  | every step => rfl
  | span a b =>
    simp only [Language.months, monthNames_eq a h.1, monthNames_eq b h.2]
    rfl
  | each ns =>
    simp only [Language.months, mapM_eq_some_map fun n hn => monthNames_eq n (h.2 n hn)]
    rfl

/-- The wording of weekdays. -/
def weekdayText : WeekdayPhrase → String
  | .workingDays => "on weekdays"
  | .weekend => "on weekends"
  | .days shape => weekdayWords.text shape

/-- Weekdays that have a name have a wording. -/
theorem weekdays_eq {phrase : WeekdayPhrase} (h : phrase.Of (· < 7)) :
    english.weekdays phrase = some (weekdayText phrase) := by
  match phrase with
  | .workingDays => rfl
  | .weekend => rfl
  | .days (.single n) =>
    simp only [Language.weekdays, weekdayPlurals_eq n h]
    rfl
  | .days (.every _) => exact h.elim
  | .days (.span a b) =>
    simp only [Language.weekdays, weekdayNames_eq a h.1, weekdayNames_eq b h.2]
    rfl
  | .days (.each ns) =>
    simp only [Language.weekdays, mapM_eq_some_map fun n hn => weekdayPlurals_eq n (h.2 n hn)]
    rfl

/-- What is said of the months, where something may have been `said` of the days. -/
def monthPart (said : Bool) : Option Shape → List Char
  | none => []
  | some shape => (if said then " " else ", ").toList ++ (monthWords.text shape).toList

/-- What is said of the weekdays and the months, where something may have been `said` of the days
of the month. -/
def weekdayPart (said : Bool) : Option WeekdayPhrase → Option Shape → List Char
  | none, months => monthPart said months
  | some phrase, months => (if said then " or " else ", ").toList ++
      ((weekdayText phrase).toList ++ monthPart true months)

/-- What is said of the days of the month, the weekdays and the months. -/
def dayPart : Option Shape → Option WeekdayPhrase → Option Shape → List Char
  | none, weekdays, months => weekdayPart false weekdays months
  | some shape, weekdays, months =>
    ", ".toList ++ ((dayWords.text shape).toList ++ weekdayPart true weekdays months)

/-- **A description of which all has a name has a wording**: the time, and what is said of the
days and the months. -/
theorem Description.Sayable.exists_text {d : Description} (h : d.Sayable) :
    ∃ text, english.describe d = some text ∧
      text.toList = (english.timePhrase d.time).toList ++ dayPart d.days d.weekdays d.months := by
  obtain ⟨time, days, weekdays, months⟩ := d
  have hweekdays : weekdays.mapM english.weekdays = some (weekdays.map weekdayText) := by
    cases weekdays with
    | none => rfl
    | some phrase =>
      rw [Option.mapM_some, weekdays_eq (h.weekdays phrase rfl)]
      rfl
  have hmonths : months.mapM english.months = some (months.map monthWords.text) := by
    cases months with
    | none => rfl
    | some shape =>
      rw [Option.mapM_some, months_eq (h.months shape rfl)]
      rfl
  simp only [Language.describe, hweekdays, hmonths, Option.bind_eq_bind, Option.bind_some]
  have heither : ∀ day weekday, english.dayOrWeekday day weekday = day ++ " or " ++ weekday :=
    fun _ _ => rfl
  cases days <;> cases weekdays <;> cases months <;>
    simp [Language.eitherDay, dayPart, weekdayPart, monthPart, days_eq, heither]

/-! ### What breaks off -/

theorem breaks_nil : Breaks [] := Or.inl rfl

theorem weekdayName_starts : ∀ n < 7, StartsItem (weekdayName n).toList := by
  decide

/-- What is said of certain weekdays goes on with the name of one. -/
theorem exists_name_weekdayWords {shape : Shape} (h : (WeekdayPhrase.days shape).Of (· < 7)) :
    ∃ a, StartsItem a ∧ (weekdayWords.text shape).toList = "on ".toList ++ a := by
  match shape with
  | .single n => exact ⟨_, clear_weekdayWords.starts n h, String.toList_append⟩
  | .every _ => exact h.elim
  | .span a b =>
    refine ⟨_, (weekdayName_starts a h.1).append (weekdayWords.upTo.toList ++
      (weekdayName b).toList), ?_⟩
    simp [ShapeWords.text, weekdayWords]
  | .each (n :: ns) =>
    refine ⟨_, (clear_weekdayWords.starts n (h.2 n (by simp))).append
      (itemsAfter (fun n => (weekdayPlural n).toList) ns), ?_⟩
    rw [ShapeWords.text, String.toList_append, listing_toList]
    rfl

/-- What is said of weekdays starts with an `on`, and goes on with no `t`. -/
theorem exists_weekdayText {phrase : WeekdayPhrase} (h : phrase.Of (· < 7)) :
    ∃ c rest, c ≠ 't' ∧ (weekdayText phrase).toList = "on ".toList ++ c :: rest := by
  match phrase with
  | .workingDays => exact ⟨'w', _, by decide, rfl⟩
  | .weekend => exact ⟨'w', _, by decide, rfl⟩
  | .days shape =>
    obtain ⟨_, ⟨c, rest, rfl, hc⟩, htext⟩ := exists_name_weekdayWords h
    exact ⟨c, rest, ne_of_isLower hc rfl, htext⟩

theorem Shape.of_of_days {p : Nat → Prop} {shape : Shape} (h : (WeekdayPhrase.days shape).Of p) :
    shape.Of p := by
  cases shape with
  | every step => exact h.elim
  | _ => exact h

/-- What is said of weekdays tells them if it breaks off. -/
theorem tells_weekdayText :
    Tells (fun phrase => (weekdayText phrase).toList) (WeekdayPhrase.Of (· < 7)) Breaks := by
  -- a name is not taken for a word that says several weekdays at once
  have hname : ∀ {shape : Shape}, (WeekdayPhrase.days shape).Of (· < 7) → ∀ k k' : List Char,
      (weekdayWords.text shape).toList ++ k ≠ "on w".toList ++ k' := by
    intro shape h k k'
    obtain ⟨_, ⟨c, cs, rfl, hc⟩, htext⟩ := exists_name_weekdayWords h
    have hne : c ≠ 'w' := ne_of_isLower hc rfl
    simp [htext, hne]
  intro x y k k' hx hy hk hk' heq
  dsimp only at heq
  match x, y with
  | .workingDays, .workingDays => exact ⟨rfl, List.append_cancel_left heq⟩
  | .weekend, .weekend => exact ⟨rfl, List.append_cancel_left heq⟩
  | .days x, .days y =>
    obtain ⟨rfl, rfl⟩ := clear_weekdayWords.tells (Shape.of_of_days hx) (Shape.of_of_days hy)
      hk hk' heq
    exact ⟨rfl, rfl⟩
  | .workingDays, .weekend | .weekend, .workingDays => simp [weekdayText] at heq
  | .workingDays, .days _ | .weekend, .days _ => exact absurd heq.symm (hname hy _ _)
  | .days _, .workingDays | .days _, .weekend => exact absurd heq (hname hx _ _)

/-! ### What is left out -/

/-- The words of a field are not taken for those of weekdays. -/
theorem weekdayText_ne {w : ShapeWords} {phrase : WeekdayPhrase} (h : phrase.Of (· < 7))
    (hw : ∀ lead ∈ [w.one, w.each, w.ends, w.every], ∀ c, c ≠ 't' →
      Clash lead.toList ("on ".toList ++ [c])) (shape : Shape) (k k' : List Char) :
    (w.text shape).toList ++ k ≠ (weekdayText phrase).toList ++ k' := by
  obtain ⟨c, rest, hc, htext⟩ := exists_weekdayText h
  have hsplit : (weekdayText phrase).toList ++ k' =
      ("on ".toList ++ [c]) ++ (rest ++ k') := by
    rw [htext]
    simp
  rw [hsplit]
  exact ShapeWords.text_ne_of_clash (fun lead hlead => hw lead hlead c hc) shape k _

theorem hours_ne_weekdays {phrase : WeekdayPhrase} (h : phrase.Of (· < 7)) (shape : Shape)
    (k k' : List Char) :
    (hourWords.text shape).toList ++ k ≠ (weekdayText phrase).toList ++ k' :=
  weekdayText_ne h (by simp [hourWords, Clash]) shape k k'

theorem days_ne_weekdays {phrase : WeekdayPhrase} (h : phrase.Of (· < 7)) (shape : Shape)
    (k k' : List Char) :
    (dayWords.text shape).toList ++ k ≠ (weekdayText phrase).toList ++ k' := by
  refine weekdayText_ne h (fun lead hlead c hc => ?_) shape k k'
  have hlead : lead = "on the " ∨ lead = "every " := by simpa [dayWords] using hlead
  rcases hlead with rfl | rfl
  · simp [Clash, hc, hc.symm]
  · simp [Clash]

theorem months_ne_weekdays {phrase : WeekdayPhrase} (h : phrase.Of (· < 7)) (shape : Shape)
    (k k' : List Char) :
    (monthWords.text shape).toList ++ k ≠ (weekdayText phrase).toList ++ k' :=
  weekdayText_ne h (by simp [monthWords, Clash]) shape k k'

/-! ### Reading the days and the months -/

section

variable {said : Bool} {days days' months months' : Option Shape}
  {weekdays weekdays' : Option WeekdayPhrase}

theorem breaks_monthPart (said : Bool) (months : Option Shape) :
    Breaks (monthPart said months) := by
  cases months with
  | none => exact breaks_nil
  | some shape =>
    rw [monthPart, ← List.append_nil (monthWords.text shape).toList]
    cases said
    · exact ShapeWords.breaks_text (by decide) shape []
    · exact ShapeWords.breaks_text (by decide) shape []

theorem breaks_weekdayPart (said : Bool) (h : ∀ phrase ∈ weekdays, phrase.Of (· < 7))
    (months : Option Shape) : Breaks (weekdayPart said weekdays months) := by
  cases weekdays with
  | none => exact breaks_monthPart said months
  | some phrase =>
    obtain ⟨c, rest, -, htext⟩ := exists_weekdayText (h phrase rfl)
    rw [weekdayPart, htext]
    cases said <;> simp [Breaks, breaks]

theorem breaks_dayPart (h : ∀ phrase ∈ weekdays, phrase.Of (· < 7)) (days months : Option Shape) :
    Breaks (dayPart days weekdays months) := by
  cases days with
  | none => exact breaks_weekdayPart false h months
  | some shape => exact ShapeWords.breaks_text (by decide) shape _

theorem monthPart_inj (h : ∀ shape ∈ months, shape.Of (· < 12))
    (h' : ∀ shape ∈ months', shape.Of (· < 12))
    (heq : monthPart said months = monthPart said months') : months = months' := by
  match months, months' with
  | none, none => rfl
  | none, some shape => cases said <;> simp [monthPart] at heq
  | some shape, none => cases said <;> simp [monthPart] at heq
  | some shape, some shape' =>
    have htext := List.append_cancel_left heq
    rw [← List.append_nil (monthWords.text shape).toList,
      ← List.append_nil (monthWords.text shape').toList] at htext
    obtain ⟨rfl, -⟩ := clear_monthWords.tells (h shape rfl) (h' shape' rfl) breaks_nil breaks_nil
      htext
    rfl

/-- What is said of weekdays is not taken for what is said of months. -/
theorem weekdays_ne_monthPart {phrase : WeekdayPhrase} (h : phrase.Of (· < 7)) (k : List Char)
    (months : Option Shape) :
    (if said then " or " else ", ").toList ++ ((weekdayText phrase).toList ++ k) ≠
      monthPart said months := by
  cases months with
  | none => cases said <;> simp [monthPart]
  | some shape =>
    rw [monthPart, ← List.append_nil (monthWords.text shape).toList]
    cases said with
    | false => exact fun heq => months_ne_weekdays h shape [] k (List.append_cancel_left heq).symm
    | true =>
      obtain ⟨lead, hlead, rest, hrest⟩ := monthWords.exists_lead shape
      have hlead : lead = "in " ∨ lead = "every " := by simpa [monthWords] using hlead
      rw [← hrest]
      rcases hlead with rfl | rfl <;> simp

theorem weekdayPart_inj (hw : ∀ phrase ∈ weekdays, phrase.Of (· < 7))
    (hw' : ∀ phrase ∈ weekdays', phrase.Of (· < 7)) (hm : ∀ shape ∈ months, shape.Of (· < 12))
    (hm' : ∀ shape ∈ months', shape.Of (· < 12))
    (heq : weekdayPart said weekdays months = weekdayPart said weekdays' months') :
    weekdays = weekdays' ∧ months = months' := by
  match weekdays, weekdays' with
  | none, none => exact ⟨rfl, monthPart_inj hm hm' heq⟩
  | none, some phrase =>
    exact absurd heq.symm (weekdays_ne_monthPart (hw' phrase rfl) _ months)
  | some phrase, none => exact absurd heq (weekdays_ne_monthPart (hw phrase rfl) _ months')
  | some phrase, some phrase' =>
    obtain ⟨rfl, hrest⟩ := tells_weekdayText (hw phrase rfl) (hw' phrase' rfl)
      (breaks_monthPart true months) (breaks_monthPart true months') (List.append_cancel_left heq)
    exact ⟨rfl, monthPart_inj hm hm' hrest⟩

/-- What is said of days of the month is not taken for what is said of weekdays or months. -/
theorem days_ne_weekdayPart (hw : ∀ phrase ∈ weekdays, phrase.Of (· < 7)) (shape : Shape)
    (k : List Char) (months : Option Shape) :
    ", ".toList ++ ((dayWords.text shape).toList ++ k) ≠ weekdayPart false weekdays months := by
  match weekdays, months with
  | none, none => simp [weekdayPart, monthPart]
  | none, some shape' =>
    rw [weekdayPart, monthPart, ← List.append_nil (monthWords.text shape').toList]
    exact fun heq => apart_dayWords_monthWords.text_ne shape shape' k []
      (List.append_cancel_left heq)
  | some phrase, months =>
    exact fun heq => days_ne_weekdays (hw phrase rfl) shape k _ (List.append_cancel_left heq)

/-- **What is said of the days and the months tells them.** -/
theorem dayPart_inj (hd : ∀ shape ∈ days, shape.Of fun day => 1 ≤ day ∧ day ≤ 31)
    (hd' : ∀ shape ∈ days', shape.Of fun day => 1 ≤ day ∧ day ≤ 31)
    (hw : ∀ phrase ∈ weekdays, phrase.Of (· < 7))
    (hw' : ∀ phrase ∈ weekdays', phrase.Of (· < 7)) (hm : ∀ shape ∈ months, shape.Of (· < 12))
    (hm' : ∀ shape ∈ months', shape.Of (· < 12))
    (heq : dayPart days weekdays months = dayPart days' weekdays' months') :
    days = days' ∧ weekdays = weekdays' ∧ months = months' := by
  match days, days' with
  | none, none => exact ⟨rfl, weekdayPart_inj hw hw' hm hm' heq⟩
  | none, some shape => exact absurd heq.symm (days_ne_weekdayPart hw shape _ months)
  | some shape, none => exact absurd heq (days_ne_weekdayPart hw' shape _ months')
  | some shape, some shape' =>
    obtain ⟨rfl, hrest⟩ := clear_dayWords.tells (hd shape rfl) (hd' shape' rfl)
      (breaks_weekdayPart true hw months) (breaks_weekdayPart true hw' months')
      (List.append_cancel_left heq)
    exact ⟨rfl, weekdayPart_inj hw hw' hm hm' hrest⟩

end

/-! ### Reading the time -/

/-- What is said of the hours behind the minutes. -/
def hourPart : Option Shape → List Char
  | none => []
  | some shape => ", ".toList ++ (hourWords.text shape).toList

theorem clock_toList (minutes hours : Option Shape) :
    (english.timePhrase (.clock minutes hours)).toList =
      (english.minutes minutes).toList ++ hourPart hours := by
  cases hours with
  | none => simp [Language.timePhrase, hourPart]
  | some shape => simp [Language.timePhrase, hourPart, hours_eq]

/-- What may follow a time: something that breaks off, and is not what is said of the hours. -/
def FollowsTime (k : List Char) : Prop :=
  Breaks k ∧ ∀ (shape : Shape) (k' : List Char),
    ", ".toList ++ ((hourWords.text shape).toList ++ k') ≠ k

theorem followsTime_dayPart {weekdays : Option WeekdayPhrase}
    (h : ∀ phrase ∈ weekdays, phrase.Of (· < 7)) (days months : Option Shape) :
    FollowsTime (dayPart days weekdays months) := by
  refine ⟨breaks_dayPart h days months, fun shape k' => ?_⟩
  match days, weekdays, months with
  | some shape', _, _ =>
    exact fun heq => apart_hourWords_dayWords.text_ne shape shape' k' _
      (List.append_cancel_left heq)
  | none, some phrase, _ =>
    exact fun heq => hours_ne_weekdays (h phrase rfl) shape k' _ (List.append_cancel_left heq)
  | none, none, some shape' =>
    rw [dayPart, weekdayPart, monthPart, ← List.append_nil (monthWords.text shape').toList]
    exact fun heq => apart_hourWords_monthWords.text_ne shape shape' k' []
      (List.append_cancel_left heq)
  | none, none, none => simp [dayPart, weekdayPart, monthPart]

/-- Certain minutes are not taken for every one of something. -/
theorem minuteWords_ne_every {c : Char} (hc : c.isLower = true) (shape : Shape)
    (k k' : List Char) : (minuteWords.text shape).toList ++ k ≠ "Every ".toList ++ c :: k' := by
  rcases minuteWords.every_or_lead shape with ⟨step, rfl⟩ | ⟨lead, hlead, rest, hrest⟩
  · obtain ⟨d, ds, hstep, hd⟩ := startsItem_number step
    have hne : d ≠ c := ne_of_isLower hd hc
    simp only [ShapeWords.text, String.toList_append, List.append_assoc, hstep]
    intro heq
    exact hne (List.cons.inj (List.append_cancel_left heq)).1
  · have hlead : lead = "At minute " ∨ lead = "At minutes " := by
      simpa [minuteWords, or_assoc] using hlead
    rw [← hrest]
    rcases hlead with rfl | rfl <;> simp

/-- What is said of the minutes tells them. -/
theorem tells_minutes : Tells (fun minutes => (english.minutes minutes).toList)
    (fun minutes => ∀ shape ∈ minutes, shape.Of (· < 60)) Breaks := by
  have hall : ∀ (shape : Shape) (k k' : List Char),
      (english.minutes (some shape)).toList ++ k ≠ (english.minutes none).toList ++ k' := by
    intro shape k k'
    rw [minutes_some]
    exact minuteWords_ne_every (by decide) shape k ("inute".toList ++ k')
  intro x y k k' hx hy hk hk' heq
  match x, y with
  | none, none => exact ⟨rfl, List.append_cancel_left heq⟩
  | none, some shape => exact absurd heq.symm (hall shape k' k)
  | some shape, none => exact absurd heq (hall shape k k')
  | some shape, some shape' =>
    simp only [minutes_some] at heq
    obtain ⟨rfl, rfl⟩ := clear_minuteWords.tells (hx shape rfl) (hy shape' rfl) hk hk' heq
    exact ⟨rfl, rfl⟩

/-- What is said of a minute of certain hours tells them. -/
theorem times_inj {m m' : Nat} {hs hs' : List Nat} {k k' : List Char}
    (h : (TimePhrase.times m hs).OfDay) (h' : (TimePhrase.times m' hs').OfDay)
    (hk : Breaks k) (hk' : Breaks k')
    (heq : (english.listing (hs.map (time · m))).toList ++ k =
      (english.listing (hs'.map (time · m'))).toList ++ k') :
    TimePhrase.times m hs = .times m' hs' ∧ k = k' := by
  obtain ⟨hm, hne, hhs⟩ := h
  obtain ⟨hm', hne', hhs'⟩ := h'
  have hpairs : ∀ (m : Nat) (hs : List Nat),
      hs.map (time · m) = (hs.map fun h => (h, m)).map fun p => time p.1 p.2 := by
    simp
  rw [hpairs, hpairs] at heq
  obtain ⟨hsame, rfl⟩ := tells_listing tells_time (fun p _ => startsItem_time p.1 p.2)
    (x := hs.map fun h => (h, m)) (y := hs'.map fun h => (h, m'))
    ⟨by simpa using hne, by simpa using fun h hh => ⟨hhs h hh, hm⟩⟩
    ⟨by simpa using hne', by simpa using fun h hh => ⟨hhs' h hh, hm'⟩⟩ hk hk' heq
  have hfst := congrArg (List.map Prod.fst) hsame
  have hsnd := congrArg (List.map Prod.snd) hsame
  simp only [List.map_map, Function.comp_def, List.map_id'] at hfst hsnd
  subst hfst
  obtain ⟨h, hs, rfl⟩ := List.exists_cons_of_ne_nil hne
  obtain rfl : m = m' := (List.cons.inj hsnd).1
  exact ⟨rfl, rfl⟩

theorem everyHour_toList : (english.timePhrase .everyHour).toList = "Every hour".toList := rfl

theorem times_toList (m : Nat) (hs : List Nat) : (english.timePhrase (.times m hs)).toList =
    "At ".toList ++ (english.listing (hs.map (time · m))).toList := String.toList_append

theorem hoursAlone_toList (shape : Shape) :
    (english.timePhrase (.hoursAlone shape)).toList = (hourWords.text shape).toList := by
  rw [Language.timePhrase, hours_eq]

theorem startsItem_minutes (minutes : Option Shape) :
    StartsItem (english.minutes minutes).toList := by
  cases minutes with
  | none => exact ⟨'E', _, rfl, rfl⟩
  | some shape =>
    obtain ⟨lead, hlead, rest, hrest⟩ := minuteWords.exists_lead shape
    have hstarts : ∀ lead ∈ [minuteWords.one, minuteWords.each, minuteWords.ends,
      minuteWords.every], StartsItem lead.toList := by decide
    rw [minutes_some, ← hrest]
    exact (hstarts lead hlead).append rest

/-- Only hours that are said alone start with a small letter. -/
theorem hoursAlone_ne {time : TimePhrase} (hne : ∀ shape, time ≠ .hoursAlone shape)
    (shape : Shape) (k k' : List Char) :
    (hourWords.text shape).toList ++ k ≠ (english.timePhrase time).toList ++ k' := by
  have hstarts : StartsItem (english.timePhrase time).toList := by
    cases time with
    | everyHour => exact ⟨'E', _, rfl, rfl⟩
    | hoursAlone shape => exact absurd rfl (hne shape)
    | times m hs =>
      rw [times_toList]
      exact StartsItem.append (by decide) _
    | clock minutes hours =>
      rw [clock_toList]
      exact (startsItem_minutes minutes).append _
  obtain ⟨c, cs, htext, hc⟩ := hstarts
  have hlead : ∀ d : Char, d.isLower = true → d ≠ c := fun _ hd => (ne_of_isLower hc hd).symm
  rw [htext]
  exact ShapeWords.text_ne_of_clash (w := hourWords) (a := [c])
    (by simp [hourWords, Clash, hlead, (hlead _ _).symm]) shape k (cs ++ k')

theorem everyHour_ne_clock (minutes hours : Option Shape) (k k' : List Char) :
    (english.timePhrase .everyHour).toList ++ k ≠
      (english.timePhrase (.clock minutes hours)).toList ++ k' := by
  rw [everyHour_toList, clock_toList, List.append_assoc]
  cases minutes with
  | none => simp [Language.minutes, english]
  | some shape =>
    rw [minutes_some]
    exact (minuteWords_ne_every (c := 'h') (by decide) shape _ ("our".toList ++ k)).symm

/-- A time of the day is not taken for minutes, since it starts with its hour. -/
theorem times_ne_clock {m : Nat} {hs : List Nat} (hne : hs ≠ []) (minutes hours : Option Shape)
    (k k' : List Char) : (english.timePhrase (.times m hs)).toList ++ k ≠
      (english.timePhrase (.clock minutes hours)).toList ++ k' := by
  obtain ⟨h, hs, rfl⟩ := List.exists_cons_of_ne_nil hne
  obtain ⟨c, cs, htime, hc⟩ := startsItem_time h m
  have hne : c ≠ 'm' := ne_of_isLower hc rfl
  rw [times_toList, clock_toList, listing_toList, htime]
  cases minutes with
  | none => simp [Language.minutes, english]
  | some shape =>
    obtain ⟨lead, hlead, rest, hrest⟩ := minuteWords.exists_lead shape
    have hlead : lead = "At minute " ∨ lead = "At minutes " ∨ lead = "Every " := by
      simpa [minuteWords] using hlead
    rw [minutes_some, ← hrest]
    rcases hlead with rfl | rfl | rfl <;> simp [hne]

theorem breaks_hourPart {k : List Char} (hk : Breaks k) (hours : Option Shape) :
    Breaks (hourPart hours ++ k) := by
  cases hours with
  | none => exact hk
  | some shape =>
    rw [hourPart, List.append_assoc]
    exact ShapeWords.breaks_text (by decide) shape k

/-- Whether hours follow the minutes shows, and they are told. -/
theorem hourPart_inj {hours hours' : Option Shape} {k k' : List Char}
    (h : ∀ shape ∈ hours, shape.Of (· < 24)) (h' : ∀ shape ∈ hours', shape.Of (· < 24))
    (hk : FollowsTime k) (hk' : FollowsTime k') (heq : hourPart hours ++ k = hourPart hours' ++ k') :
    hours = hours' ∧ k = k' := by
  match hours, hours' with
  | none, none => exact ⟨rfl, heq⟩
  | none, some shape =>
    rw [hourPart, hourPart, List.append_assoc] at heq
    exact absurd heq.symm (hk.2 shape k')
  | some shape, none =>
    rw [hourPart, hourPart, List.append_assoc] at heq
    exact absurd heq (hk'.2 shape k)
  | some shape, some shape' =>
    rw [hourPart, hourPart, List.append_assoc, List.append_assoc] at heq
    obtain ⟨rfl, rfl⟩ := clear_hourWords.tells (h shape rfl) (h' shape' rfl) hk.1 hk'.1
      (List.append_cancel_left heq)
    exact ⟨rfl, rfl⟩

/-- **What is said of the time tells it.** -/
theorem tells_timePhrase : Tells (fun time => (english.timePhrase time).toList)
    TimePhrase.OfDay FollowsTime := by
  intro x y k k' hx hy hk hk' heq
  dsimp only at heq
  match x, y with
  | .everyHour, .everyHour => exact ⟨rfl, List.append_cancel_left heq⟩
  | .hoursAlone shape, .hoursAlone shape' =>
    rw [hoursAlone_toList, hoursAlone_toList] at heq
    obtain ⟨rfl, rfl⟩ := clear_hourWords.tells hx hy hk.1 hk'.1 heq
    exact ⟨rfl, rfl⟩
  | .times m hs, .times m' hs' =>
    rw [times_toList, times_toList, List.append_assoc, List.append_assoc] at heq
    exact times_inj hx hy hk.1 hk'.1 (List.append_cancel_left heq)
  | .clock minutes hours, .clock minutes' hours' =>
    rw [clock_toList, clock_toList, List.append_assoc, List.append_assoc] at heq
    obtain ⟨rfl, hrest⟩ := tells_minutes hx.1 hy.1 (breaks_hourPart hk.1 hours)
      (breaks_hourPart hk'.1 hours') heq
    obtain ⟨rfl, rfl⟩ := hourPart_inj hx.2 hy.2 hk hk' hrest
    exact ⟨rfl, rfl⟩
  | .hoursAlone shape, .everyHour | .hoursAlone shape, .times _ _
  | .hoursAlone shape, .clock _ _ =>
    rw [hoursAlone_toList] at heq
    exact absurd heq (hoursAlone_ne (by simp) shape k k')
  | .everyHour, .hoursAlone shape | .times _ _, .hoursAlone shape
  | .clock _ _, .hoursAlone shape =>
    rw [hoursAlone_toList] at heq
    exact absurd heq.symm (hoursAlone_ne (by simp) shape k' k)
  | .everyHour, .times _ _ | .times _ _, .everyHour =>
    simp [everyHour_toList, times_toList] at heq
  | .everyHour, .clock minutes hours =>
    exact absurd heq (everyHour_ne_clock minutes hours k k')
  | .clock minutes hours, .everyHour =>
    exact absurd heq.symm (everyHour_ne_clock minutes hours k' k)
  | .times m hs, .clock minutes hours =>
    exact absurd heq (times_ne_clock hx.2.1 minutes hours k k')
  | .clock minutes hours, .times m hs =>
    exact absurd heq.symm (times_ne_clock hy.2.1 minutes hours k' k)

/-- **Descriptions of which all has a name have the same wording only if they are the same.** -/
theorem Description.eq_of_describe_eq {d d' : Description} (h : d.Sayable) (h' : d'.Sayable)
    (heq : english.describe d = english.describe d') : d = d' := by
  obtain ⟨text, htext, hlist⟩ := h.exists_text
  obtain ⟨text', htext', hlist'⟩ := h'.exists_text
  obtain rfl : text = text' := Option.some.inj (htext.symm.trans (heq.trans htext'))
  rw [hlist] at hlist'
  obtain ⟨htime, hrest⟩ := tells_timePhrase h.time h'.time (followsTime_dayPart h.weekdays _ _)
    (followsTime_dayPart h'.weekdays _ _) hlist'
  obtain ⟨hdays, hweekdays, hmonths⟩ :=
    dayPart_inj h.days h'.days h.weekdays h'.weekdays h.months h'.months hrest
  obtain ⟨_, _, _, _⟩ := d
  obtain ⟨_, _, _, _⟩ := d'
  simp only at htime hdays hweekdays hmonths
  rw [htime, hdays, hweekdays, hmonths]

end Crontab
