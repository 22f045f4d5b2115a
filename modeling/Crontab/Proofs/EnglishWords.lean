import Crontab.Proofs.Wording

/-! # English words

The English words for minutes, hours, days, months and weekdays cannot be taken for others, neither
within one field (`ShapeWords.Clear`) nor between two of them (`ShapeWords.Apart`).  The names
are few, and none of them begins another, which is looked up name by name; only the numbers of
minutes, the times of the day and the two names that each weekday has need a reason.
-/

namespace Crontab

namespace English

/-! ### Names -/

/-- The name of a weekday. -/
def weekdayName (n : Nat) : String := english.weekdayNames[n]?.getD ""

/-- The name of a weekday that comes back every week. -/
def weekdayPlural (n : Nat) : String := english.weekdayPlurals[n]?.getD ""

/-- The name of a month. -/
def monthName (n : Nat) : String := english.monthNames[n]?.getD ""

theorem hour_prefix : ∀ a < 24, ∀ b < 24, (hour a).toList <+: (hour b).toList → a = b := by
  decide

theorem ordinal_prefix :
    ∀ a < 32, ∀ b < 32, (ordinal a).toList <+: (ordinal b).toList → a = b := by
  decide

theorem monthName_prefix :
    ∀ a < 12, ∀ b < 12, (monthName a).toList <+: (monthName b).toList → a = b := by
  decide

theorem weekdayName_prefix :
    ∀ a < 7, ∀ b < 7, (weekdayName a).toList <+: (weekdayName b).toList → a = b := by
  decide

theorem weekdayPlural_prefix :
    ∀ a < 7, ∀ b < 7, (weekdayPlural a).toList <+: (weekdayPlural b).toList → a = b := by
  decide

/-! ### Times of the day -/

/-- The number on the dial. -/
def onDial (h : Nat) : Nat := if h = 0 then 12 else if 13 ≤ h ∧ h ≤ 23 then h - 12 else h

/-- The half of the day. -/
def half (h : Nat) : String := if h < 12 then "AM" else "PM"

theorem time_toList (h minute : Nat) : (time h minute).toList =
    (toString (onDial h)).toList ++
      (":".toList ++ ((twoDigits minute).toList ++ (" ".toList ++ (half h).toList))) := by
  simp [time, onDial, half]

theorem twoDigits_prefix :
    ∀ a < 60, ∀ b < 60, (twoDigits a).toList <+: (twoDigits b).toList → a = b := by
  have hlength : ∀ n < 60, (twoDigits n).toList.length = 2 := by decide
  have hvalue : ∀ n < 60, Nat.ofDigitChars 10 (twoDigits n).toList 0 = n := by decide
  intro a ha b hb hpre
  have heq := hpre.eq_of_length ((hlength a ha).trans (hlength b hb).symm)
  rw [← hvalue a ha, heq, hvalue b hb]

theorem half_prefix : ∀ a < 24, ∀ b < 24, onDial a = onDial b →
    (half a).toList <+: (half b).toList → a = b := by
  decide

/-- **Times of the day tell their hour and their minute.** -/
theorem tells_time : Tells (fun p : Nat × Nat => (time p.1 p.2).toList)
    (fun p => p.1 < 24 ∧ p.2 < 60) NoDigit := by
  rintro ⟨h, m⟩ ⟨h', m'⟩ k k' ⟨hh, hm⟩ ⟨hh', hm'⟩ hk hk' heq
  simp only [time_toList, List.append_assoc] at heq
  have hcolon : ∀ k, NoDigit (":".toList ++ k) := by simp [NoDigit]
  obtain ⟨hdial, heq⟩ := tells_number trivial trivial (hcolon _) (hcolon _) heq
  have hminute : Tells (fun n => (twoDigits n).toList) (· < 60) fun _ => True :=
    tells_of_prefix fun a b ha hb => twoDigits_prefix a ha b hb
  obtain ⟨rfl, hrest⟩ := hminute hm hm' trivial trivial (List.append_cancel_left heq)
  -- hours with the same number on the dial differ in their half
  have hhour : Tells (fun n => (half n).toList) (fun n => n < 24 ∧ onDial n = onDial h) NoDigit :=
    tells_of_prefix fun a b ha hb =>
      half_prefix a ha.1 b hb.1 (ha.2.trans hb.2.symm)
  obtain ⟨rfl, rfl⟩ := hhour ⟨hh, rfl⟩ ⟨hh', hdial.symm⟩ hk hk'
    (List.append_cancel_left hrest)
  exact ⟨rfl, rfl⟩

theorem startsItem_time (h m : Nat) : StartsItem (time h m).toList := by
  rw [time_toList]
  exact (startsItem_number _).append _

/-! ### Words for one field -/

/-- The words for minutes. -/
def minuteWords : ShapeWords where
  one := "At minute "
  each := "At minutes "
  ends := "At minutes "
  upTo := "-"
  every := "Every "
  unit := " minutes"
  item := toString
  endItem := toString

/-- The words for hours. -/
def hourWords : ShapeWords where
  one := "at "
  each := "at "
  ends := "between "
  upTo := " and "
  every := "every "
  unit := " hours"
  item := hour
  endItem := hour

/-- The words for days of the month. -/
def dayWords : ShapeWords where
  one := "on the "
  each := "on the "
  ends := "on the "
  upTo := " through "
  every := "every "
  unit := " days"
  item := ordinal
  endItem := ordinal

/-- The words for months. -/
def monthWords : ShapeWords where
  one := "in "
  each := "in "
  ends := "in "
  upTo := "-"
  every := "every "
  unit := " months"
  item := monthName
  endItem := monthName

/-- The words for weekdays, of which no step is said. -/
def weekdayWords : ShapeWords where
  one := "on "
  each := "on "
  ends := "on "
  upTo := " through "
  every := "every "
  unit := " weekdays"
  item := weekdayPlural
  endItem := weekdayName

theorem endsApart_of_same {w : ShapeWords} {p : Nat → Prop} (hsame : w.endItem = w.item)
    (hitem : Tells (fun n => (w.item n).toList) p NoDigit) (hdigit : ∀ k, NoDigit (w.upTo.toList ++ k))
    (hupTo : ∀ k, ¬ FollowsItem (w.upTo.toList ++ k)) : w.EndsApart p := by
  intro a n k k' ha hn hk' heq
  rw [hsame] at heq
  obtain ⟨-, rfl⟩ := hitem ha hn (hdigit k) hk'.noDigit heq
  exact hupTo k hk'

theorem clear_minuteWords : minuteWords.Clear (· < 60) where
  item := tells_number.mono fun _ _ => trivial
  starts n _ := startsItem_number n
  endItem := tells_number.mono fun _ _ => trivial
  upTo k := by simp [minuteWords, NoDigit]
  unit k := by simp [minuteWords, NoDigit]
  one_each := Or.inl (by decide)
  ends_one := Or.inl (by decide)
  ends_each := Or.inr ⟨rfl, endsApart_of_same rfl (tells_number.mono fun _ _ => trivial)
    (by simp [minuteWords, NoDigit]) (by simp [minuteWords, FollowsItem])⟩
  every := by decide

theorem clear_hourWords : hourWords.Clear (· < 24) where
  item := tells_of_prefix fun a b ha hb => hour_prefix a ha b hb
  starts := by decide
  endItem := tells_of_prefix fun a b ha hb => hour_prefix a ha b hb
  upTo k := by simp [hourWords, NoDigit]
  unit k := by simp [hourWords, NoDigit]
  one_each := Or.inr rfl
  ends_one := Or.inl (by decide)
  ends_each := Or.inl (by decide)
  every := by decide

theorem clear_dayWords : dayWords.Clear fun n => 1 ≤ n ∧ n ≤ 31 := by
  have hitem : Tells (fun n => (dayWords.item n).toList) (fun n => 1 ≤ n ∧ n ≤ 31) NoDigit :=
    tells_of_prefix fun a b ha hb => ordinal_prefix a (by omega) b (by omega)
  have hstarts : ∀ n < 32, StartsItem (dayWords.item n).toList := by decide
  have hdigit : ∀ k, NoDigit (dayWords.upTo.toList ++ k) := by simp [dayWords, NoDigit]
  have hapart : dayWords.EndsApart fun n => 1 ≤ n ∧ n ≤ 31 :=
    endsApart_of_same rfl hitem hdigit (by simp [dayWords, FollowsItem])
  exact {
    item := hitem
    starts := fun n hn => hstarts n (by omega)
    endItem := hitem
    upTo := hdigit
    unit := by simp [dayWords, NoDigit]
    one_each := Or.inr rfl
    ends_one := Or.inr ⟨rfl, hapart⟩
    ends_each := Or.inr ⟨rfl, hapart⟩
    every := by decide }

theorem clear_monthWords : monthWords.Clear (· < 12) := by
  have hitem : Tells (fun n => (monthWords.item n).toList) (· < 12) NoDigit :=
    tells_of_prefix fun a b ha hb => monthName_prefix a ha b hb
  have hdigit : ∀ k, NoDigit (monthWords.upTo.toList ++ k) := by simp [monthWords, NoDigit]
  have hapart : monthWords.EndsApart (· < 12) :=
    endsApart_of_same rfl hitem hdigit (by simp [monthWords, FollowsItem])
  exact {
    item := hitem
    starts := by decide
    endItem := hitem
    upTo := hdigit
    unit := by simp [monthWords, NoDigit]
    one_each := Or.inr rfl
    ends_one := Or.inr ⟨rfl, hapart⟩
    ends_each := Or.inr ⟨rfl, hapart⟩
    every := by decide }

/-- A weekday at the end of a span has no `s`, so it is no weekday of a list. -/
theorem weekdayName_clash : ∀ a < 7, ∀ n < 7,
    Clash ((weekdayName a).toList ++ " ".toList) (weekdayPlural n).toList := by
  decide

theorem clear_weekdayWords : weekdayWords.Clear (· < 7) := by
  have hapart : weekdayWords.EndsApart (· < 7) := by
    intro a n k k' ha hn _ heq
    refine (weekdayName_clash a ha n hn).ne ("through ".toList ++ k) k' ?_
    simpa [weekdayWords] using heq
  exact {
    item := tells_of_prefix fun a b ha hb => weekdayPlural_prefix a ha b hb
    starts := by decide
    endItem := tells_of_prefix fun a b ha hb => weekdayName_prefix a ha b hb
    upTo := by simp [weekdayWords, NoDigit]
    unit := by simp [weekdayWords, NoDigit]
    one_each := Or.inr rfl
    ends_one := Or.inr ⟨rfl, hapart⟩
    ends_each := Or.inr ⟨rfl, hapart⟩
    every := by decide }

/-! ### Words for two fields -/

theorem apart_hourWords_dayWords : hourWords.Apart dayWords :=
  ⟨by decide, by decide, rfl, by simp [hourWords, NoDigit], by simp [dayWords, NoDigit], by decide⟩

theorem apart_hourWords_monthWords : hourWords.Apart monthWords :=
  ⟨by decide, by decide, rfl, by simp [hourWords, NoDigit], by simp [monthWords, NoDigit],
    by decide⟩

theorem apart_dayWords_monthWords : dayWords.Apart monthWords :=
  ⟨by decide, by decide, rfl, by simp [dayWords, NoDigit], by simp [monthWords, NoDigit],
    by decide⟩

end English

end Crontab
