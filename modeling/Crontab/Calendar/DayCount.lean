import Crontab.Calendar

/-! # Dates and day numbers

Counting the days up to a date and finding the date of a numbered day undo each other:
every number belongs to a date that exists (`exists_ofDayNumber`), which has that
number (`dayNumber_ofDayNumber`), and **no two dates have the same**
(`ofDayNumber_dayNumber`).
-/

namespace Crontab.Date

/-! ### Lengths -/

theorem isLeapYear_iff (year : Int) :
    isLeapYear year = true ↔ year % 4 = 0 ∧ year % 100 ≠ 0 ∨ year % 400 = 0 := by
  simp [isLeapYear]

/-- A year is as long as its twelve months. -/
theorem daysBeforeMonth_twelve (year : Int) :
    daysBeforeMonth year 12 = if isLeapYear year then 366 else 365 := by
  simp only [daysBeforeMonth, monthLength]
  split <;> rfl

theorem le_monthLength (year : Int) (month : Nat) : 28 ≤ monthLength year month := by
  unfold monthLength
  split
  · split <;> decide
  · decide
  · decide
  · decide
  · decide
  · decide

theorem monthLength_le (year : Int) (month : Nat) : monthLength year month ≤ 31 := by
  unfold monthLength
  split
  · split <;> decide
  · decide
  · decide
  · decide
  · decide
  · decide

/-- The first day of a year comes as many days after the first day of the year before as
that year has. -/
theorem daysBeforeYear_succ (year : Int) :
    daysBeforeYear (year + 1) = daysBeforeYear year + daysBeforeMonth year 12 := by
  rw [daysBeforeMonth_twelve]
  unfold daysBeforeYear
  by_cases h : isLeapYear year = true
  · have := (isLeapYear_iff year).mp h
    rw [if_pos h]
    omega
  · have := mt (isLeapYear_iff year).mpr h
    rw [if_neg h]
    omega

theorem daysBeforeMonth_mono (year : Int) {a b : Nat} (h : a ≤ b) :
    daysBeforeMonth year a ≤ daysBeforeMonth year b := by
  induction h with
  | refl => exact Nat.le_refl _
  | step _ ih => exact Nat.le_trans ih (Nat.le_add_right _ _)

/-- A later month starts after every day of an earlier one. -/
theorem daysBeforeMonth_add_le (year : Int) {a b : Nat} (h : a < b) :
    daysBeforeMonth year a + monthLength year a ≤ daysBeforeMonth year b :=
  daysBeforeMonth_mono year (Nat.succ_le_of_lt h)

theorem daysBeforeYear_mono {a b : Int} (h : a ≤ b) : daysBeforeYear a ≤ daysBeforeYear b := by
  obtain ⟨k, rfl⟩ := Int.le.dest h
  induction k with
  | zero => simp
  | succ k ih =>
      have hs := daysBeforeYear_succ (a + k)
      rw [show a + ((k + 1 : Nat) : Int) = a + k + 1 by omega, hs]
      have := ih (by omega)
      omega

/-- A later year starts after every day of an earlier one. -/
theorem daysBeforeYear_add_le {a b : Int} (h : a < b) :
    daysBeforeYear a + daysBeforeMonth a 12 ≤ daysBeforeYear b := by
  rw [← daysBeforeYear_succ]
  exact daysBeforeYear_mono h

/-! ### The date of a numbered day -/

/-- A day of the year lies in one of its months. -/
theorem locate_eq (year : Int) : ∀ (left month rest : Nat), left + month = 11 →
    daysBeforeMonth year month + rest < daysBeforeMonth year 12 →
    ∃ m d, locate year left month rest = (m, d + 1) ∧ m < 12 ∧ d < monthLength year m ∧
      daysBeforeMonth year m + d = daysBeforeMonth year month + rest
  | 0, month, rest, hm, hr => by
      obtain rfl : month = 11 := by omega
      refine ⟨11, rest, rfl, by decide, ?_, rfl⟩
      have : daysBeforeMonth year 12 = daysBeforeMonth year 11 + monthLength year 11 := rfl
      omega
  | left + 1, month, rest, hm, hr => by
      unfold locate
      split
      · rename_i hlt
        exact ⟨month, rest, rfl, by omega, hlt, rfl⟩
      · have hs : daysBeforeMonth year (month + 1) =
            daysBeforeMonth year month + monthLength year month := rfl
        obtain ⟨m, d, he, hm', hd, hsum⟩ :=
          locate_eq year left (month + 1) (rest - monthLength year month) (by omega)
            (by omega)
        exact ⟨m, d, he, hm', hd, by omega⟩

/-- The first day of a year, by the cycles of 400, 100 and 4 years before it. -/
theorem daysBeforeYear_cycles (cycle : Int) {century four single : Nat}
    (hc : century ≤ 3) (hf : four ≤ 24) (hs : single ≤ 3) :
    daysBeforeYear (cycle * 400 + century * 100 + four * 4 + single + 1) =
      146097 * cycle + 36524 * century + 1461 * four + 365 * single := by
  unfold daysBeforeYear
  omega

/-- The year that ends a cycle of four is a leap year, unless it ends a century that does
not end a cycle of 400. -/
theorem isLeapYear_cycles (cycle : Int) (century : Nat) {four : Nat} (hf : four ≤ 24)
    (h : four < 24 ∨ century = 3) :
    isLeapYear (cycle * 400 + century * 100 + four * 4 + (3 : Nat) + 1) = true := by
  rw [isLeapYear_iff]
  omega

/-- The day with a number lies in the year that dividing out the cycles gives, as many
days after its first as are left over. -/
theorem ofDayNumber_eq (n : Int) : ∃ (year : Int) (rest : Nat),
    n + epochDay = daysBeforeYear year + rest ∧ rest < daysBeforeMonth year 12 ∧
      ofDayNumber n = ⟨year, (locate year 11 0 rest).1, (locate year 11 0 rest).2⟩ := by
  unfold ofDayNumber
  extract_lets sinceFirst inCycle century inCentury inFour single year
  have hcycle : sinceFirst = 146097 * (sinceFirst / 146097) + inCycle ∧ inCycle < 146097 := by
    omega
  have hcentury : century ≤ 3 ∧ inCycle = 36524 * century + inCentury ∧ inCentury ≤ 36524 ∧
      (century < 3 → inCentury < 36524) := by
    omega
  have hfour : inCentury / 1461 ≤ 24 ∧ inCentury = 1461 * (inCentury / 1461) + inFour ∧
      inFour < 1461 := by
    omega
  have hsingle : single ≤ 3 ∧ 365 * single ≤ inFour ∧ inFour - 365 * single ≤ 365 ∧
      (inFour - 365 * single = 365 → single = 3 ∧ inFour = 1460) := by
    omega
  refine ⟨year, inFour - single * 365, ?_, ?_, rfl⟩
  · have := daysBeforeYear_cycles (sinceFirst / 146097) hcentury.1 hfour.1 hsingle.1
    change sinceFirst = daysBeforeYear year + _
    change daysBeforeYear year = _ at this
    omega
  · rw [daysBeforeMonth_twelve]
    split
    · omega
    · rename_i hleap
      by_cases hlong : inFour - 365 * single = 365
      · exfalso
        obtain ⟨hs, hf⟩ := hsingle.2.2.2 hlong
        apply hleap
        have := isLeapYear_cycles (sinceFirst / 146097) century hfour.1 (by omega)
        change isLeapYear (_ + (single : Int) + 1) = true
        rw [hs]
        exact this
      · omega

theorem exists_ofDayNumber (n : Int) : (ofDayNumber n).Exists := by
  obtain ⟨year, rest, _, hr, he⟩ := ofDayNumber_eq n
  obtain ⟨m, d, hl, hm, hd, _⟩ := locate_eq year 11 0 rest rfl
    (by simpa [daysBeforeMonth] using hr)
  rw [he, hl]
  exact ⟨hm, Nat.le_add_left 1 d, hd⟩

theorem dayNumber_ofDayNumber (n : Int) : (ofDayNumber n).dayNumber = n := by
  obtain ⟨year, rest, hn, hr, he⟩ := ofDayNumber_eq n
  obtain ⟨m, d, hl, _, _, hsum⟩ := locate_eq year 11 0 rest rfl
    (by simpa [daysBeforeMonth] using hr)
  have hz : daysBeforeMonth year 0 = 0 := rfl
  rw [he, hl, dayNumber]
  simp only
  omega

/-- A date comes before every date of a later year or a later month, and before the later
days of its month. -/
theorem dayNumber_lt {a b : Date} (ha : a.Exists) (hb : b.Exists)
    (h : a.year < b.year ∨ a.year = b.year ∧
      (a.month < b.month ∨ a.month = b.month ∧ a.day < b.day)) :
    a.dayNumber < b.dayNumber := by
  obtain ⟨ham, _, had⟩ := ha
  obtain ⟨hbm, hbd, _⟩ := hb
  have hin : daysBeforeMonth a.year a.month + a.day ≤ daysBeforeMonth a.year 12 := by
    have := daysBeforeMonth_add_le a.year ham
    omega
  unfold dayNumber
  rcases h with h | ⟨hy, h | ⟨hm, h⟩⟩
  · have := daysBeforeYear_add_le h
    omega
  · have := daysBeforeMonth_add_le a.year h
    rw [← hy]
    omega
  · rw [← hy, ← hm]
    omega

/-- Dates lie no more days apart than their years and one year more have. -/
theorem dayNumber_near {a b : Date} {years : Nat} (ha : a.Exists) (hb : b.Exists)
    (h : (a.year - b.year).natAbs ≤ years) :
    (a.dayNumber - b.dayNumber).natAbs ≤ (years + 1) * 366 := by
  have hin : ∀ {d : Date}, d.Exists →
      1 ≤ d.day ∧ daysBeforeMonth d.year d.month + d.day ≤ 366 := by
    intro d hd
    have h1 := daysBeforeMonth_add_le d.year hd.1
    have h2 := daysBeforeMonth_twelve d.year
    have := hd.2
    split at h2 <;> omega
  have := hin ha
  have := hin hb
  unfold dayNumber daysBeforeYear
  omega

theorem dayNumber_inj {a b : Date} (ha : a.Exists) (hb : b.Exists)
    (h : a.dayNumber = b.dayNumber) : a = b := by
  have hab := mt (dayNumber_lt ha hb) (by omega)
  have hba := mt (dayNumber_lt hb ha) (by omega)
  obtain ⟨ay, am, ad⟩ := a
  obtain ⟨bly, bm, bd⟩ := b
  simp only [mk.injEq] at *
  omega

theorem ofDayNumber_dayNumber {d : Date} (h : d.Exists) : ofDayNumber d.dayNumber = d :=
  dayNumber_inj (exists_ofDayNumber _) h (dayNumber_ofDayNumber _)

/-! ### Days of the week -/

/-- Each weekday comes in the first week of a month. -/
theorem exists_weekday (year : Int) (month : Nat) {n : Nat} (hn : n ≤ 6) :
    ∃ day, (1 ≤ day ∧ day ≤ 7) ∧ weekday ⟨year, month, day⟩ = n := by
  have hnumber : ∀ k : Nat, dayNumber ⟨year, month, 1 + k⟩ =
      dayNumber ⟨year, month, 1⟩ + k := by
    intro k
    simp only [dayNumber]
    omega
  refine ⟨1 + ((n - (dayNumber ⟨year, month, 1⟩ + 4)) % 7).toNat, ⟨by omega, by omega⟩, ?_⟩
  rw [weekday, hnumber]
  omega

theorem weekday_le (d : Date) : d.weekday ≤ 6 := by
  unfold weekday
  omega

end Crontab.Date
