import Crontab.Proofs.Legible

/-! # What a description leaves open

A description in English tells the five sets of a schedule.  It does not tell whether the day and
the weekday must both be right or either suffices, since a field that allows everything is left
out, whether or not it is written as a bare star.  Of two schedules with the same sets, one where
either suffices and one where both are needed part at the days that lie in one of the two sets
alone (`Schedule.SameSets.admits_ne_iff`).  Where both are needed, one of the fields is a bare star
and holds every day, so there is such a day exactly if a day or a weekday is left out
(`Schedule.RestrictsDay.exists_day`).

Hence **schedules of one text mean the same, unless either suffices in just one of them and some
day or weekday is left out** (`Schedule.describe_eq_iff_sameSets`).
-/

namespace Crontab

namespace Schedule

variable {s t : Schedule} {month day : Nat} {c : CivilMinute}

/-! ### Days that are left out -/

/-- A weekday is left out, or a day that one of the months has in some year. -/
def RestrictsDay (s : Schedule) : Prop :=
  (∃ n, n ≤ 6 ∧ n ∉ s.weekdays) ∨
    ∃ month ∈ s.months, ∃ day, (1 ≤ day ∧ day ≤ longestMonth month) ∧ day ∉ s.days

/-- Where both the day and the weekday are needed, one of the two is always right. -/
theorem Valid.every_of_not_eitherDay (hv : s.Valid) (h : s.eitherDay = false) :
    (∀ n, 1 ≤ n → n ≤ 31 → n ∈ s.days) ∨ ∀ n ≤ 6, n ∈ s.weekdays := by
  rw [eitherDay, Bool.and_eq_false_iff, Bool.not_eq_false', Bool.not_eq_false'] at h
  exact h.imp hv.every_day hv.every_weekday

/-- **If all days or all weekdays are allowed and a day or a weekday is left out, then some day
lies in one of the two sets alone.** -/
theorem RestrictsDay.exists_day (h : s.RestrictsDay) (hv : s.Valid)
    (hevery : (∀ n, 1 ≤ n → n ≤ 31 → n ∈ s.days) ∨ ∀ n ≤ 6, n ∈ s.weekdays) :
    ∃ month ∈ s.months, ∃ day, (1 ≤ day ∧ day ≤ longestMonth month) ∧
      ¬ (day ∈ s.days ↔ Date.weekday ⟨2000, month, day⟩ ∈ s.weekdays) := by
  rcases h with ⟨n, hn, hout⟩ | ⟨month, hmonth, day, hday, hout⟩
  · obtain ⟨month, hmonth, -⟩ := hv.feasible
    obtain ⟨day, ⟨hone, hseven⟩, hweekday⟩ := Date.exists_weekday 2000 month hn
    have hlen : 28 ≤ longestMonth month := Date.le_monthLength 2000 month
    have hdays := hevery.resolve_right fun hall => hout (hall n hn)
    refine ⟨month, hmonth, day, ⟨hone, by omega⟩, fun hiff => hout ?_⟩
    rw [← hweekday]
    exact hiff.mp (hdays day hone (by omega))
  · have hlen : longestMonth month ≤ 31 := Date.monthLength_le 2000 month
    have hweekdays := hevery.resolve_left fun hall => hout (hall day hday.1 (by omega))
    exact ⟨month, hmonth, day, hday, fun hiff => hout (hiff.mpr (hweekdays _ (Date.weekday_le _)))⟩

/-- Every day that one of the months has in some year comes, at a time that is allowed. -/
theorem Valid.exists_wall (hv : s.Valid) (hmonth : month ∈ s.months)
    (hday : 1 ≤ day ∧ day ≤ longestMonth month) : ∃ w : WallTime,
    (w.civil.minute ∈ s.minutes ∧ w.civil.hour ∈ s.hours) ∧
      w.civil.toDate = ⟨2000, month, day⟩ := by
  obtain ⟨minute, hminute⟩ := hv.some_minute
  obtain ⟨hour, hhour⟩ := hv.some_hour
  have hyear : firstYear ≤ 2000 ∧ 2000 ≤ lastYear := by decide
  have hinUse : CivilMinute.InUse ⟨⟨2000, month, day⟩, hour, minute⟩ :=
    ⟨⟨hyear, Nat.lt_succ_of_le (hv.month_le month hmonth), hday⟩,
      Nat.lt_succ_of_le (hv.hour_le hour hhour), Nat.lt_succ_of_le (hv.minute_le minute hminute)⟩
  obtain ⟨w, -, -, -, hw⟩ := CivilMinute.exists_toWall? hinUse
  refine ⟨w, ?_⟩
  rw [hw]
  exact ⟨⟨hminute, hhour⟩, rfl⟩

/-! ### Schedules with the same sets -/

namespace SameSets

theorem symm (h : s.SameSets t) : t.SameSets s :=
  ⟨fun n => (h.minutes n).symm, fun n => (h.hours n).symm, fun n => (h.days n).symm,
    fun n => (h.months n).symm, fun n => (h.weekdays n).symm⟩

theorem restrictsDay_iff (h : s.SameSets t) : s.RestrictsDay ↔ t.RestrictsDay := by
  simp only [RestrictsDay, h.weekdays, h.months, h.days]

/-- Schedules that agree whether either suffices admit the same. -/
theorem admits_eq (h : s.SameSets t) (hs : s.Valid) (ht : t.Valid)
    (heither : s.eitherDay = t.eitherDay) (hc : c.Exists) : s.admits c = t.admits c := by
  rw [Bool.eq_iff_iff, admits_iff_mem hs hc, admits_iff_mem ht hc, heither]
  simp only [h.minutes, h.hours, h.days, h.months, h.weekdays]

/-- **A schedule where either suffices and one where both are needed part at the days that lie in
one set alone.** -/
theorem admits_ne_iff (h : s.SameSets t) (hs : s.Valid) (ht : t.Valid)
    (heither : s.eitherDay = true) (hboth : t.eitherDay = false) (hc : c.Exists) :
    s.admits c ≠ t.admits c ↔
      (c.minute ∈ s.minutes ∧ c.hour ∈ s.hours ∧ c.month ∈ s.months) ∧
        ¬ (c.day ∈ s.days ↔ c.toDate.weekday ∈ s.weekdays) := by
  rw [ne_eq, Bool.eq_iff_iff, admits_iff_mem hs hc, admits_iff_mem ht hc, heither, hboth]
  simp only [h.minutes, h.hours, h.days, h.months, h.weekdays, if_true, Bool.false_eq_true,
    if_false]
  tauto

/-- Such schedules part at some time exactly if a day or a weekday is left out. -/
theorem exists_admitsWall_ne_iff (h : s.SameSets t) (hs : s.Valid) (ht : t.Valid)
    (heither : s.eitherDay = true) (hboth : t.eitherDay = false) :
    (∃ w : WallTime, s.admitsWall w ≠ t.admitsWall w) ↔ s.RestrictsDay := by
  constructor
  · rintro ⟨w, hne⟩
    obtain ⟨⟨-, -, hmonth⟩, hpart⟩ :=
      (h.admits_ne_iff hs ht heither hboth w.civil_inUse.exists).mp hne
    obtain ⟨-, hday, hlen⟩ := w.civil_inUse.1.2
    by_cases hmem : w.civil.day ∈ s.days
    · exact Or.inl ⟨w.civil.toDate.weekday, Date.weekday_le _,
        fun hweekday => hpart (iff_of_true hmem hweekday)⟩
    · exact Or.inr ⟨w.civil.month, hmonth, w.civil.day,
        ⟨hday, Nat.le_trans hlen (monthLength_le_longestMonth _ _)⟩, hmem⟩
  · intro hrestricts
    have hevery : (∀ n, 1 ≤ n → n ≤ 31 → n ∈ s.days) ∨ ∀ n ≤ 6, n ∈ s.weekdays := by
      simpa only [h.days, h.weekdays] using ht.every_of_not_eitherDay hboth
    obtain ⟨month, hmonth, day, hday, hpart⟩ := hrestricts.exists_day hs hevery
    obtain ⟨w, ⟨hminute, hhour⟩, hdate⟩ := hs.exists_wall hmonth hday
    refine ⟨w, (h.admits_ne_iff hs ht heither hboth w.civil_inUse.exists).mpr ?_⟩
    rw [hdate]
    exact ⟨⟨hminute, hhour, hmonth⟩, hpart⟩

theorem exists_admitsWall_ne_iff_eitherDay_ne (h : s.SameSets t) (hs : s.Valid) (ht : t.Valid) :
    (∃ w : WallTime, s.admitsWall w ≠ t.admitsWall w) ↔
      s.eitherDay ≠ t.eitherDay ∧ s.RestrictsDay := by
  by_cases hmode : s.eitherDay = t.eitherDay
  · have hsame : ∀ w : WallTime, s.admitsWall w = t.admitsWall w := fun w =>
      h.admits_eq hs ht hmode w.civil_inUse.exists
    simp [hmode, hsame]
  · rw [and_iff_right hmode]
    cases heither : s.eitherDay with
    | true =>
      have hboth : t.eitherDay = false := by simpa [heither] using hmode
      exact h.exists_admitsWall_ne_iff hs ht heither hboth
    | false =>
      have heither' : t.eitherDay = true := by simpa [heither] using hmode
      rw [h.restrictsDay_iff, ← h.symm.exists_admitsWall_ne_iff ht hs heither' heither]
      exact exists_congr fun w => ne_comm

end SameSets

/-- **What a description in English says of its schedule.**  Every schedule has one.  Two schedules
have the same one exactly if their five sets are the same, and then they mean the same at every
time, unless a right day or a right weekday suffices in just one of them and some day or weekday is
left out. -/
theorem describe_eq_iff_sameSets {expression expression' : String}
    (hs : parse expression = .ok s) (ht : parse expression' = .ok t) :
    (∃ text, s.describe english = some text) ∧
    (s.describe english = t.describe english ↔ s.SameSets t) ∧
    (s.describe english = t.describe english →
      ((∃ w : WallTime, s.admitsWall w ≠ t.admitsWall w) ↔
        s.eitherDay ≠ t.eitherDay ∧ s.RestrictsDay)) := by
  have hbs := bounded_of_parse hs
  have hbt := bounded_of_parse ht
  have hsets : s.describe english = t.describe english ↔ s.SameSets t := by
    rw [← hbs.description_eq_iff hbt]
    exact ⟨Description.eq_of_describe_eq hbs.sayable hbt.sayable, congrArg english.describe⟩
  obtain ⟨text, htext, -⟩ := hbs.sayable.exists_text
  exact ⟨⟨text, htext⟩, hsets, fun heq =>
    (hsets.mp heq).exists_admitsWall_ne_iff_eitherDay_ne (valid_of_parse hs) (valid_of_parse ht)⟩

/-- On the first or on any day of the week, and on the first alone: the text is the same, the
meaning is not. -/
theorem describe_eq_iff_sameSets_first : ∃ s t, parse "30 4 1 * 0-6" = .ok s ∧
    parse "30 4 1 * *" = .ok t ∧
    (s.describe english = some "At 4:30 AM, on the 1st" ∧
      t.describe english = some "At 4:30 AM, on the 1st") ∧
    s.SameSets t ∧ ∃ w : WallTime, s.admitsWall w ≠ t.admitsWall w := by
  obtain ⟨s, hs, htext, heither, hmonth, hout⟩ := exists_of_parse "30 4 1 * 0-6"
    (fun s => s.describe english = some "At 4:30 AM, on the 1st" ∧ s.eitherDay = true ∧
      0 ∈ s.months ∧ 2 ∉ s.days) (by decide +kernel)
  obtain ⟨t, ht, htext', heither'⟩ := exists_of_parse "30 4 1 * *"
    (fun t => t.describe english = some "At 4:30 AM, on the 1st" ∧ t.eitherDay = false)
    (by decide)
  obtain ⟨-, hsets, hparts⟩ := describe_eq_iff_sameSets hs ht
  have heq := htext.trans htext'.symm
  refine ⟨s, t, hs, ht, ⟨htext, htext'⟩, hsets.mp heq, (hparts heq).mpr ⟨?_, ?_⟩⟩
  · rw [heither, heither']
    decide
  · exact Or.inr ⟨0, hmonth, 2, by decide, hout⟩

/-- The text of an expression that is due on a Tuesday speaks of Mondays alone, as does that of an
expression that is not. -/
theorem describe_eq_of_fullRange : ∃ s t, parse "0 9 1-31 * 1" = .ok s ∧
    parse "0 9 * * 1" = .ok t ∧
    (s.describe english = some "At 9:00 AM, on Mondays" ∧
      t.describe english = some "At 9:00 AM, on Mondays") ∧
    ∃ w : WallTime, w.civil.toDate.weekday = 2 ∧ s.admitsWall w = true ∧
      t.admitsWall w = false := by
  let tuesday : WallTime := ⟨1767690000, 0, by decide, by decide, by decide⟩
  obtain ⟨s, hs, htext, hdue⟩ := exists_of_parse "0 9 1-31 * 1"
    (fun s => s.describe english = some "At 9:00 AM, on Mondays" ∧ s.admitsWall tuesday = true)
    (by decide +kernel)
  obtain ⟨t, ht, htext', hdue'⟩ := exists_of_parse "0 9 * * 1"
    (fun t => t.describe english = some "At 9:00 AM, on Mondays" ∧ t.admitsWall tuesday = false)
    (by decide)
  exact ⟨s, t, hs, ht, ⟨htext, htext'⟩, tuesday, by decide, hdue, hdue'⟩

end Schedule

end Crontab
