import Crontab.Proofs.Moving
import Crontab.Proofs.Nearest

/-! # The budget of a search is never spent

A search may make `maxCorrections` corrections, and may look at `maxMonths` months in one
hop.  Neither is ever used up (`Schedule.seek_ne_stepsExhausted`): whoever leaves a month
finds one with a day to look at within eight years, because a leap year lies among any
eight in a row, and a month entered that way has an admitted minute in the first week that
is looked at (`Schedule.exists_admitted_of_landing`).

So a search comes back without a minute only when it leaves the years in use, and
**it does that exactly when no admitted minute in use lies ahead**
(`Schedule.seek_total`).
-/

namespace Crontab

open Outcome

/-! ### Leap years -/

/-- In a leap year every month has its greatest length. -/
theorem monthLength_of_isLeapYear {year : Int} (h : isLeapYear year = true) (month : Nat) :
    monthLength year month = longestMonth month := by
  have h2000 : isLeapYear 2000 = true := by decide
  unfold longestMonth monthLength
  rw [h, h2000]

/-- Among the eight years after a year there is a leap year, and so among the eight before. -/
theorem exists_isLeapYear (d : Direction) (year : Int) :
    ∃ y, isLeapYear y = true ∧ d.Passes year y ∧ (y - year).natAbs ≤ 8 := by
  cases d <;> simp only [Direction.Passes, Date.isLeapYear_iff]
  · by_cases h : (year + (4 - year % 4)) % 100 = 0
    · exact ⟨year + (8 - year % 4), by omega, by omega, by omega⟩
    · exact ⟨year + (4 - year % 4), by omega, by omega, by omega⟩
  · by_cases h : (year - (year - 1) % 4 - 1) % 100 = 0
    · exact ⟨year - (year - 1) % 4 - 5, by omega, by omega, by omega⟩
    · exact ⟨year - (year - 1) % 4 - 1, by omega, by omega, by omega⟩

namespace Schedule

variable {s : Schedule} {d : Direction} {c c' m : CivilMinute}

/-! ### A hop to another month -/

/-- Hops find the month with a day to look at that lies no more than as many months
beyond. -/
theorem exists_enterMonth (hv : s.Valid) {y : Int} {n : Nat} (hn : n ∈ s.months)
    (hland : s.landingDay? d y n ≠ none) : ∀ {hops : Nat} {year : Int} {month : Nat}, month < 12 →
      d.Passes (monthIndex year month) (monthIndex y n) →
      (monthIndex y n - monthIndex year month).natAbs ≤ hops →
      ∃ c', s.enterMonth d hops year month = .ok c'
  | 0, year, month, _, hp, hle => by
      cases d <;> simp only [Direction.Passes] at hp <;> omega
  | hops + 1, year, month, hmonth, hp, hle => by
      obtain ⟨hmem, hpass, hnear⟩ := monthBeyond_spec (d := d) hv year hmonth
      have hr := hnear y n hn hp
      rw [enterMonth]
      generalize s.monthBeyond d year month = next at *
      obtain ⟨year', month'⟩ := next
      simp only at *
      cases hnext : s.landingDay? d year' month' with
      | some day => exact ⟨_, rfl⟩
      | none =>
          have h1 := hv.month_le _ hmem
          have h2 := hv.month_le _ hn
          have hne : monthIndex year' month' ≠ monthIndex y n := by
            intro he
            apply hland
            unfold monthIndex at he
            obtain ⟨rfl, rfl⟩ : year' = y ∧ month' = n := by omega
            exact hnext
          refine exists_enterMonth hv hn hland (Nat.lt_succ_of_le h1) ?_ ?_
          · exact (Direction.reaches_iff.mp hr).resolve_left hne
          · cases d <;> simp only [Direction.Reaches, Direction.Passes] at * <;> omega

/-- The date that the schedule waits for comes within eight years. -/
theorem exists_landing (hv : s.Valid) (d : Direction) (year : Int) :
    ∃ (y : Int) (n : Nat), n ∈ s.months ∧ s.landingDay? d y n ≠ none ∧ d.Passes year y ∧
      (y - year).natAbs ≤ 8 := by
  obtain ⟨n, hn, day, hday, hle⟩ := hv.feasible
  obtain ⟨y, hleap, hp, hnear⟩ := exists_isLeapYear d year
  refine ⟨y, n, hn, fun hnone => ?_, hp, hnear⟩
  have := (landingDay?_eq_none hnone).2 day hday
  rw [monthLength_of_isLeapYear hleap] at this
  omega

/-- **Whoever leaves a month finds another to enter.** -/
theorem exists_leaveMonth (hv : s.Valid) (hc : c.month < 12) :
    ∃ c', s.leaveMonth d c = .ok c' := by
  obtain ⟨y, n, hn, hland, hp, hnear⟩ := exists_landing hv d c.year
  have := hv.month_le n hn
  refine exists_enterMonth hv hn hland hc ?_ ?_
  · cases d <;> simp only [Direction.Passes, monthIndex] at * <;> omega
  · simp only [monthIndex, maxMonths]
    omega

theorem exists_leaveDay (hv : s.Valid) (hc : c.month < 12) : ∃ c', s.leaveDay d c = .ok c' := by
  unfold leaveDay
  extract_lets target candidate
  cases candidate with
  | none => exact exists_leaveMonth hv hc
  | some day =>
    simp only
    split
    · exact ⟨_, rfl⟩
    · exact exists_leaveMonth hv hc

theorem exists_moveHour (hv : s.Valid) (hc : c.month < 12) (target : Int) :
    ∃ c', s.moveHour d c target = .ok c' := by
  unfold moveHour
  split
  · exact ⟨_, rfl⟩
  · exact exists_leaveDay hv hc

theorem exists_moveMinute (hv : s.Valid) (hc : c.month < 12) :
    ∃ c', s.moveMinute d c = .ok c' := by
  unfold moveMinute
  split
  · exact ⟨_, rfl⟩
  · exact exists_moveHour hv hc _

/-- **A correction fails only on a date that is not in use.** -/
theorem correct?_eq_error (hv : s.Valid) (hc : c.month < 12) {e : SearchError}
    (h : s.correct? d c = .error e) : e = .outOfCalendar ∧ ¬ c.toDate.InUse := by
  have moved {x : Except SearchError CivilMinute} (hx : ∃ c', x = .ok c') :
      x.map some ≠ .error e := by
    obtain ⟨c', rfl⟩ := hx
    simp [Except.map]
  unfold correct? at h
  split at h
  · exact absurd h (moved (exists_leaveMonth hv hc))
  split at h
  · rename_i huse
    cases h
    exact ⟨rfl, huse⟩
  split at h
  · exact absurd h (moved (exists_leaveDay hv hc))
  split at h
  · exact absurd h (moved (exists_moveHour hv hc _))
  split at h
  · exact absurd h (moved (exists_moveMinute hv hc))
  · cases h

/-! ### A month that has been entered -/

/-- A month is entered at a day that the day field allows, where that field alone decides. -/
theorem landingDay?_mem {year : Int} {month day : Nat} (hmode : s.eitherDay = false)
    (h : s.landingDay? d year month = some day) : day ∈ s.days := by
  cases d <;> simp only [landingDay?, hmode] at h
  · exact (FieldSet.next?_eq_some_iff.mp (Option.filter_eq_some_iff.mp h).1).1.1
  · exact (FieldSet.prev?_eq_some_iff.mp h).1.1

/-- Where the weekday field has a say, a month is entered at its edge. -/
theorem landingDay?_edge (hv : s.Valid) {year : Int} {month day : Nat}
    (hweekday : s.anyWeekday = false) (h : s.landingDay? d year month = some day) :
    d = .forward ∧ day = 1 ∨ d = .backward ∧ day = monthLength year month := by
  have hlen := Date.le_monthLength year month
  have hlen' := Date.monthLength_le year month
  cases hmode : s.eitherDay with
  | true => cases d <;> simp only [landingDay?, hmode] at h <;> cases h <;> simp
  | false =>
    have hany : s.anyDay = true := by simpa [eitherDay, hweekday] using hmode
    cases d <;> simp only [landingDay?, hmode] at h
    · obtain ⟨⟨hmem, -⟩, hnear⟩ :=
        FieldSet.next?_eq_some_iff.mp (Option.filter_eq_some_iff.mp h).1
      have := (hv.day_bounds day hmem).1
      have := hnear 1 ⟨hv.every_day hany 1 (by omega) (by omega), by omega⟩
      exact Or.inl ⟨rfl, by omega⟩
    · obtain ⟨⟨-, hle⟩, hnear⟩ := FieldSet.prev?_eq_some_iff.mp h
      have := hnear _ ⟨hv.every_day hany (monthLength year month) (by omega) hlen', by omega⟩
      exact Or.inr ⟨rfl, by omega⟩

/-- The week in which a month is entered has an admitted day. -/
theorem exists_admitsDay_of_landing (hv : s.Valid) {year : Int} {month day : Nat}
    (h : s.landingDay? d year month = some day) :
    ∃ day', (1 ≤ day' ∧ day' ≤ monthLength year month) ∧ d.Reaches day day' ∧
      ((day' : Int) - day).natAbs ≤ 6 ∧
      s.admitsDay day' (Date.weekday ⟨year, month, day'⟩) none = true := by
  have hlen := Date.le_monthLength year month
  obtain ⟨hday, -⟩ := landingDay?_eq_some hv h
  cases hweekday : s.anyWeekday with
  | true =>
    refine ⟨day, hday, Direction.reaches_refl d _, by omega, ?_⟩
    cases hany : s.anyDay with
    | true => simp [admitsDay, hany, hweekday]
    | false =>
      have := landingDay?_mem (by simp [eitherDay, hweekday]) h
      simp [admitsDay, hany, hweekday, this]
  | false =>
    obtain ⟨w, hw⟩ := hv.some_weekday
    have := hv.weekday_le w hw
    -- a day on which the weekday is `w` is admitted, and seven days in a row have one
    have hadm : ∀ day', Date.weekday ⟨year, month, day'⟩ = w →
        s.admitsDay day' (Date.weekday ⟨year, month, day'⟩) none = true := by
      intro day' he
      cases hany : s.anyDay <;> simp [admitsDay, hany, hweekday, he, hw]
    have hnumber : ∀ n : Nat, Date.dayNumber ⟨year, month, n⟩ =
        Date.dayNumber ⟨year, month, 0⟩ + n := by
      intro n
      simp only [Date.dayNumber]
      omega
    rcases landingDay?_edge hv hweekday h with ⟨rfl, rfl⟩ | ⟨rfl, rfl⟩
    · refine ⟨1 + ((w - (Date.dayNumber ⟨year, month, 1⟩ + 4)) % 7).toNat, ⟨by omega, by omega⟩,
        Int.ofNat_le.mpr (by omega), by omega, hadm _ ?_⟩
      have := hnumber 1
      rw [Date.weekday, hnumber]
      omega
    · refine ⟨monthLength year month -
        ((Date.dayNumber ⟨year, month, monthLength year month⟩ + 4 - w) % 7).toNat,
        ⟨by omega, by omega⟩, Int.ofNat_le.mpr (by omega), by omega, hadm _ ?_⟩
      have := hnumber (monthLength year month)
      rw [Date.weekday, hnumber]
      omega

/-- **A month that is entered has an admitted minute within a week.** -/
theorem exists_admitted_of_landing (hv : s.Valid) {year : Int} {month day : Nat}
    (hmonth : month ∈ s.months) (h : s.landingDay? d year month = some day) :
    ∃ m : CivilMinute, m.Exists ∧ s.admits m = true ∧ (s.enterDay d ⟨year, month, day⟩).Ahead d m ∧
      (m.toDate.rank - Date.rank ⟨year, month, day⟩).natAbs ≤ 6 := by
  obtain ⟨day', hday', hr, hnear, hadm⟩ := exists_admitsDay_of_landing hv h
  have hdate : Date.Exists ⟨year, month, day'⟩ := ⟨Nat.lt_succ_of_le (hv.month_le _ hmonth), hday'⟩
  have hready := ready_enterDay (d := d) hv hdate hmonth
  have hadmits : s.admits (s.enterDay d ⟨year, month, day'⟩) = true :=
    admits_iff.mpr ⟨hready.minute, hready.hour, hready.month, hadm⟩
  refine ⟨_, hready.exist, hadmits, ahead_enterDay hv hready.exist hadmits ?_, ?_⟩
  · cases d <;> simp only [Direction.Reaches, Date.rank, enterDay] at * <;> omega
  · simp only [Date.rank, enterDay]
    omega

/-- A month that is entered has an admitted minute within a week. -/
theorem exists_admitted_of_enterMonth (hv : s.Valid) : ∀ {hops : Nat} {year : Int} {month : Nat},
    month < 12 → s.enterMonth d hops year month = .ok c →
    ∃ m : CivilMinute, m.Exists ∧ s.admits m = true ∧ c.Ahead d m ∧
      (m.toDate.rank - c.toDate.rank).natAbs ≤ 6
  | 0, _, _, _, h => by cases h
  | hops + 1, year, month, hmonth, h => by
      obtain ⟨hmem, -, -⟩ := monthBeyond_spec (d := d) hv year hmonth
      rw [enterMonth] at h
      generalize s.monthBeyond d year month = next at *
      obtain ⟨year', month'⟩ := next
      simp only at *
      cases hland : s.landingDay? d year' month' with
      | some day =>
          rw [hland] at h
          cases h
          exact exists_admitted_of_landing hv hmem hland
      | none =>
          rw [hland] at h
          exact exists_admitted_of_enterMonth hv (Nat.lt_succ_of_le (hv.month_le _ hmem)) h

/-! ### From day to day -/

/-- Where a day has been left, the search stands on a later day of the month or has entered
another. -/
theorem leaveDay_eq_ok (h : s.leaveDay d c = .ok c') :
    (∃ day : Nat, d.Passes c.day day ∧ day ≤ monthLength c.year c.month ∧
      c' = s.enterDay d ⟨c.year, c.month, day⟩) ∨ s.leaveMonth d c = .ok c' := by
  unfold leaveDay at h
  extract_lets target candidate at h
  cases hcand : candidate with
  | none =>
    rw [hcand] at h
    exact Or.inr h
  | some day =>
    rw [hcand] at h
    simp only at h
    split at h
    · rename_i hle
      cases h
      refine Or.inl ⟨day, Direction.reaches_add_sign.mp ?_, hle, rfl⟩
      simp only [candidate] at hcand
      split at hcand
      · split at hcand
        · cases hcand
          rw [Int.toNat_of_nonneg (by omega)]
          exact Direction.reaches_refl d _
        · cases hcand
      · exact (Direction.find?_eq_some_iff.mp hcand).1.2
    · exact Or.inr h

/-- Past the first correction, a correction leaves the day. -/
theorem Ready.leaveDay (hc : s.Ready c) (h : s.correct? d c = .ok (some c')) :
    s.leaveDay d c = .ok c' := by
  rcases correct?_eq_ok h with ⟨hmonth, -⟩ | ⟨-, -, ⟨-, _, hnext, he⟩ | ⟨-, h⟩⟩
  · exact absurd hc.month hmonth
  · cases he
    exact hnext
  rcases h with ⟨hhour, -⟩ | ⟨-, ⟨hminute, -⟩ | ⟨-, he⟩⟩
  · exact absurd hc.hour hhour
  · exact absurd hc.minute hminute
  · cases he

/-- The day that is left is not entered again. -/
theorem passes_of_leaveDay (hv : s.Valid) (hc : c.Exists) (hc' : c'.Exists)
    (h : s.leaveDay d c = .ok c') : d.Passes c.toDate.rank c'.toDate.rank := by
  have := hc.bounds
  have := hc'.bounds
  rcases leaveDay_eq_ok h with ⟨day, hp, -, rfl⟩ | h
  · cases d <;> simp only [Direction.Passes, Date.rank, enterDay] at * <;> omega
  · have hp := (enterMonth_spec hv hc.1.1 h).2.1
    cases d <;> simp only [Direction.Passes, monthIndex, Date.rank] at * <;> omega

/-! ### The corrections that a search makes -/

/-- A search that can make one correction more than the rest of it takes has enough. -/
theorem seek_succ_ne_stepsExhausted (hv : s.Valid) (hc : c.Exists) {corrections : Nat}
    (h : ∀ c', s.correct? d c = .ok (some c') → s.seek d corrections c' ≠ .error .stepsExhausted) :
    s.seek d (corrections + 1) c ≠ .error .stepsExhausted := by
  rw [seek]
  cases hlook : s.correct? d c with
  | error e =>
    obtain ⟨rfl, -⟩ := correct?_eq_error hv hc.1.1 hlook
    simp
  | ok next =>
    cases next with
    | none => simp
    | some c' => exact h c' hlook

/-- Past the first correction, a search takes no more corrections than there are days up to
an admitted minute. -/
theorem seek_ne_stepsExhausted_of_near (hv : s.Valid) (he : m.Exists) (hm : s.admits m = true) :
    ∀ {corrections : Nat} {c : CivilMinute}, s.Ready c → c.Ahead d m →
      (m.toDate.rank - c.toDate.rank).natAbs < corrections →
      s.seek d corrections c ≠ .error .stepsExhausted
  | 0, _, _, _, hlt => by omega
  | corrections + 1, c, hc, ha, hlt => by
      refine seek_succ_ne_stepsExhausted hv hc.exist fun c' hlook => ?_
      have hcor := corrects_of_correct? hv hc.exist hlook
      have hahead := hcor.ahead m he hm ha
      have hp := passes_of_leaveDay hv hc.exist hcor.ready.exist (hc.leaveDay hlook)
      refine seek_ne_stepsExhausted_of_near hv he hm hcor.ready hahead ?_
      have := hcor.ready.exist.bounds
      have := he.bounds
      cases d <;> simp only [CivilMinute.Ahead, CivilMinute.rank, Direction.Reaches,
        Direction.Passes] at * <;> omega

/-- The days that the month of a minute may have left. -/
def daysLeft (d : Direction) (c : CivilMinute) : Nat :=
  match d with
  | .forward => 31 - c.day
  | .backward => c.day

/-- Past the first correction, a search takes a correction for every day that the month has
left, and a week of them in the month after it. -/
theorem seek_ne_stepsExhausted_of_ready (hv : s.Valid) :
    ∀ {corrections : Nat} {c : CivilMinute}, s.Ready c → daysLeft d c + 7 < corrections →
      s.seek d corrections c ≠ .error .stepsExhausted
  | 0, _, _, hlt => by omega
  | corrections + 1, c, hc, hlt => by
      refine seek_succ_ne_stepsExhausted hv hc.exist fun c' hlook => ?_
      have hready := (corrects_of_correct? hv hc.exist hlook).ready
      rcases leaveDay_eq_ok (hc.leaveDay hlook) with ⟨day, hp, hle, rfl⟩ | hleave
      · refine seek_ne_stepsExhausted_of_ready hv hready ?_
        have := Date.monthLength_le c.year c.month
        cases d <;> simp only [daysLeft, Direction.Passes, enterDay] at * <;> omega
      · obtain ⟨m, he, hm, ha, hnear⟩ :=
          exists_admitted_of_enterMonth hv hc.exist.1.1 hleave
        exact seek_ne_stepsExhausted_of_near hv he hm hready ha (by omega)

/-- **The budget of a search is never spent.** -/
theorem seek_ne_stepsExhausted (hv : s.Valid) (hc : c.Exists) :
    s.seek d maxCorrections c ≠ .error .stepsExhausted := by
  refine seek_succ_ne_stepsExhausted hv hc fun c' hlook => ?_
  have hready := (corrects_of_correct? hv hc hlook).ready
  refine seek_ne_stepsExhausted_of_ready hv hready ?_
  have := hready.exist.bounds
  cases d <;> simp only [daysLeft] <;> omega

/-! ### The end of the calendar -/

/-- A search that fails with corrections to spare stands on a date that is not in use, and
has left no admitted minute behind. -/
theorem seek_eq_error (hv : s.Valid) {e : SearchError} :
    ∀ {corrections : Nat} {c : CivilMinute}, c.Exists → s.seek d corrections c = .error e →
      e = .stepsExhausted ∨ e = .outOfCalendar ∧ ∃ r : CivilMinute, r.Exists ∧
        ¬ r.toDate.InUse ∧ c.Ahead d r ∧
        ∀ m : CivilMinute, m.Exists → s.admits m = true → c.Ahead d m → r.Ahead d m
  | 0, _, _, h => by
      cases h
      exact Or.inl rfl
  | corrections + 1, c, hc, h => by
      rw [seek] at h
      cases hlook : s.correct? d c with
      | error e' =>
          rw [hlook] at h
          cases h
          obtain ⟨rfl, huse⟩ := correct?_eq_error hv hc.1.1 hlook
          exact Or.inr ⟨rfl, c, hc, huse, Direction.reaches_refl _ _, fun m _ _ ha => ha⟩
      | ok next =>
          rw [hlook] at h
          cases next with
          | none => cases h
          | some c' =>
              have hcor := corrects_of_correct? hv hc hlook
              have hstep : c.Ahead d c' := Direction.reaches_iff.mpr (Or.inr hcor.passes)
              rcases seek_eq_error hv hcor.ready.exist h with he | ⟨he, r, hr, huse, hpast, hahead⟩
              · exact Or.inl he
              · exact Or.inr ⟨he, r, hr, huse, Direction.reaches_trans hstep hpast,
                  fun m hm had ha => hahead m hm had (hcor.ahead m hm had ha)⟩

/-- A search for which an admitted minute in use lies ahead finds one. -/
theorem exists_seek (hv : s.Valid) (hc : c.InUse) (hm : m.InUse) (hadm : s.admits m = true)
    (ha : c.Ahead d m) : ∃ r, s.seek d maxCorrections c = .ok r := by
  cases h : s.seek d maxCorrections c with
  | ok r => exact ⟨r, rfl⟩
  | error e =>
    exfalso
    rcases seek_eq_error hv hc.exists h with rfl | ⟨-, r, hr, huse, hpast, hahead⟩
    · exact seek_ne_stepsExhausted hv hc.exists h
    · exact huse (CivilMinute.inUse_of_reaches hc hm hr hpast (hahead m hm.exists hadm ha)).1

/-! ### How far a search goes -/

/-- An admitted minute lies within eight years of any year. -/
theorem exists_admitted_near (hv : s.Valid) (d : Direction) (year : Int) :
    ∃ m : CivilMinute, m.Exists ∧ s.admits m = true ∧ d.Passes year m.year ∧
      (m.year - year).natAbs ≤ 8 := by
  obtain ⟨y, n, hn, hland, hp, hnear⟩ := exists_landing hv d year
  obtain ⟨day, hday⟩ := Option.ne_none_iff_exists'.mp hland
  obtain ⟨day', hin, -, -, hadm⟩ := exists_admitsDay_of_landing hv hday
  have hdate : Date.Exists ⟨y, n, day'⟩ := ⟨Nat.lt_succ_of_le (hv.month_le n hn), hin⟩
  have hready := ready_enterDay (d := d) hv hdate hn
  have hadmits := admits_iff.mpr ⟨hready.minute, hready.hour, hready.month, hadm⟩
  exact ⟨_, hready.exist, hadmits, hp, hnear⟩

/-- **A search goes no further than nine years.** -/
theorem exists_seek_near (hv : s.Valid) (d : Direction) {t : WallTime} (ht : t.Inside 79104) :
    ∃ c, s.seek d maxCorrections t.civil = .ok c ∧
      (c.number * 60 - t.second).natAbs ≤ 3296 * 86400 := by
  have huse := t.civil_inUse
  have hnum := t.number_civil
  have := huse.exists.bounds
  obtain ⟨m, he, hadm, hp, hyear⟩ := exists_admitted_near hv d t.civil.year
  have := he.bounds
  have hday := Date.dayNumber_near he.1 huse.1.2 hyear
  have hmnum : (m.number - t.civil.number).natAbs ≤ 3295 * 1440 := by
    unfold CivilMinute.number at *
    omega
  obtain ⟨hf, hl⟩ := ht
  have hm : m.InUse := by
    refine ⟨(Date.inUse_iff_dayNumber he.1).mpr ⟨?_, ?_⟩, he.2⟩
    · unfold CivilMinute.number at *
      omega
    · unfold CivilMinute.number at *
      omega
  have ha : t.civil.Ahead d m := by
    cases d <;> simp only [CivilMinute.Ahead, CivilMinute.rank, Date.rank, Direction.Reaches,
      Direction.Passes] at * <;> omega
  obtain ⟨c, hc⟩ := exists_seek hv huse hm hadm ha
  obtain ⟨hcuse, -, hpast, hahead⟩ := seek_spec hv huse.exists hc
  refine ⟨c, hc, ?_⟩
  have h1 := (CivilMinute.reaches_number_iff huse.exists hcuse.exists).mpr hpast
  have h2 := (CivilMinute.reaches_number_iff hcuse.exists he).mpr (hahead m he hadm ha)
  cases d <;> simp only [Direction.Reaches] at h1 h2 <;> omega

/-! ### Totality -/

/-- **The search is total.**  Its budget is never spent: it finds a minute whenever the
schedule admits one in use from the start on, and leaves the calendar exactly when there
is none. -/
theorem seek_total {expression : String} (hs : parse expression = .ok s) (d : Direction)
    (t : WallTime) :
    s.seek d maxCorrections t.civil ≠ .error .stepsExhausted ∧
    ((∃ m : CivilMinute, m.InUse ∧ d.Reaches t.civil.number m.number ∧ s.admits m = true) →
      ∃ c, s.seek d maxCorrections t.civil = .ok c) ∧
    (s.seek d maxCorrections t.civil = .error .outOfCalendar ↔
      ¬ ∃ m : CivilMinute, m.InUse ∧ d.Reaches t.civil.number m.number ∧ s.admits m = true) := by
  have hv := valid_of_parse hs
  have huse := t.civil_inUse
  have hfound : (∃ m : CivilMinute, m.InUse ∧ d.Reaches t.civil.number m.number ∧
      s.admits m = true) → ∃ c, s.seek d maxCorrections t.civil = .ok c := by
    rintro ⟨m, hm, hr, hadm⟩
    exact exists_seek hv huse hm hadm
      ((CivilMinute.reaches_number_iff huse.exists hm.exists).mp hr)
  refine ⟨seek_ne_stepsExhausted hv huse.exists, hfound, ?_, ?_⟩
  · intro herr hex
    obtain ⟨c, hc⟩ := hfound hex
    rw [herr] at hc
    cases hc
  · intro hnone
    cases h : s.seek d maxCorrections t.civil with
    | ok c =>
      exfalso
      obtain ⟨hc, hadm, hpast, -⟩ := seek_spec hv huse.exists h
      exact hnone ⟨c, hc, (CivilMinute.reaches_number_iff huse.exists hc.exists).mpr hpast, hadm⟩
    | error e =>
      rcases seek_eq_error hv huse.exists h with rfl | ⟨rfl, -⟩
      · exact absurd h (seek_ne_stepsExhausted hv huse.exists)
      · rfl

/-- No 29 February in use lies before the first leap year, so a search backward from the first
year leaves the calendar. -/
theorem seek_total_firstYear : ∃ s, parse "0 0 29 2 *" = .ok s ∧
    ∃ t : WallTime, t.second = firstSecond + 86400 ∧
      s.seek .backward maxCorrections t.civil = .error .outOfCalendar ∧
      ¬ ∃ m : CivilMinute, m.InUse ∧ Direction.backward.Reaches t.civil.number m.number ∧
        s.admits m = true := by
  obtain ⟨s, hs, h⟩ := exists_of_parse "0 0 29 2 *" (fun s => s.seek .backward maxCorrections
      (⟨firstSecond + 86400, 0, by decide, by decide, by decide⟩ : WallTime).civil =
        .error .outOfCalendar) (by decide +kernel)
  exact ⟨s, hs, _, rfl, h, (seek_total hs .backward _).2.2.mp h⟩

end Schedule

end Crontab
