import Crontab.Proofs.Budget
import Crontab.Proofs.Invariant

/-! # Expressions that have a date

An expression is refused if none of its months ever has one of its days.  The check that finds this
out looks at the earliest of the days alone, against the length that a month has in a leap year, and
at nothing where all days or all months are allowed.  All the same **it passes exactly if some year
has a date on one of the days in one of the months** (`Schedule.isFeasible_iff`).

What is not refused comes before long.  One leap year follows on another within eight years
(`Date.exists_next_leapYear`), and every date that some year has lies in all of them, so it lies
among any 2921 days in a row (`Date.exists_leapYear_from`).  That settles it where the weekday has
no say.  Where it has one, some day of the first week is right in every month that is allowed, and a
month that is allowed comes every year.  Either way **an expression that is not refused is due
within 2922 days of any day, and one that is refused would never have been due if the day field
alone decides** (`Schedule.parse_lacksDate_iff`).
-/

namespace Crontab

namespace Date

variable {year : Int} {month day : Nat}

/-! ### Dates of leap years -/

/-- A month starts as many days into one leap year as into another. -/
theorem daysBeforeMonth_congr {a b : Int} (ha : isLeapYear a = true) (hb : isLeapYear b = true)
    (month : Nat) : daysBeforeMonth a month = daysBeforeMonth b month := by
  induction month with
  | zero => rfl
  | succ month ih =>
    rw [daysBeforeMonth, daysBeforeMonth, ih, monthLength_of_isLeapYear ha,
      monthLength_of_isLeapYear hb]

/-- **A leap year is followed by another after four years**, or after eight about most centuries. -/
theorem exists_next_leapYear (h : isLeapYear year = true) : ∃ next, isLeapYear next = true ∧
    daysBeforeYear year < daysBeforeYear next ∧
    daysBeforeYear next ≤ daysBeforeYear year + 2921 := by
  rw [isLeapYear_iff] at h
  unfold daysBeforeYear
  by_cases hcentury : isLeapYear (year + 4) = true
  · exact ⟨year + 4, hcentury, by omega, by omega⟩
  · rw [isLeapYear_iff] at hcentury
    exact ⟨year + 8, (isLeapYear_iff _).mpr (by omega), by omega, by omega⟩

/-- From a date of a leap year on, the same date comes again and again with no more than 2921 days
from one to the next. -/
theorem exists_leapYear_of_lt {n : Int} (k : Nat) : ∀ {year : Int}, isLeapYear year = true →
    dayNumber ⟨year, month, day⟩ < n → n - dayNumber ⟨year, month, day⟩ ≤ k →
    ∃ y, isLeapYear y = true ∧ n ≤ dayNumber ⟨y, month, day⟩ ∧
      dayNumber ⟨y, month, day⟩ < n + 2921 := by
  -- the induction is on the days that are left up to `n`, of which every step takes some
  induction k with
  | zero =>
    intro year _ hlt hle
    omega
  | succ k ih =>
    intro year hleap hlt hle
    obtain ⟨next, hnext, hpast, hnear⟩ := exists_next_leapYear hleap
    have hmonth := daysBeforeMonth_congr hleap hnext month
    have hnumber : dayNumber ⟨next, month, day⟩ =
        dayNumber ⟨year, month, day⟩ + (daysBeforeYear next - daysBeforeYear year) := by
      simp only [dayNumber]
      omega
    by_cases hreach : n ≤ dayNumber ⟨next, month, day⟩
    · exact ⟨next, hnext, hreach, by omega⟩
    · exact ih hnext (by omega) (by omega)

/-- **A date that some year has lies among any 2921 days in a row.** -/
theorem exists_leapYear_from (hmonth : month < 12) (hday : 1 ≤ day ∧ day ≤ longestMonth month)
    (n : Int) : ∃ year, Date.Exists ⟨year, month, day⟩ ∧ n ≤ dayNumber ⟨year, month, day⟩ ∧
      dayNumber ⟨year, month, day⟩ < n + 2921 := by
  have hexists : ∀ {y}, isLeapYear y = true → Date.Exists ⟨y, month, day⟩ := fun hleap =>
    ⟨hmonth, hday.1, (monthLength_of_isLeapYear hleap month).symm ▸ hday.2⟩
  obtain ⟨year, hleap, hbefore, -⟩ := exists_isLeapYear .backward (ofDayNumber n).year
  have hlt := dayNumber_lt (hexists hleap) (exists_ofDayNumber n) (Or.inl hbefore)
  rw [dayNumber_ofDayNumber] at hlt
  obtain ⟨y, hy, hfrom, hto⟩ := exists_leapYear_of_lt _ hleap hlt (Int.self_le_toNat _)
  exact ⟨y, hexists hy, hfrom, hto⟩

/-- **A day that every month has comes in the year after that of a day**, and no more than two years
from then. -/
theorem nextYear_near (hmonth : month < 12) (hday : 1 ≤ day ∧ day ≤ 28) (n : Int) :
    Date.Exists ⟨(ofDayNumber n).year + 1, month, day⟩ ∧
      n ≤ dayNumber ⟨(ofDayNumber n).year + 1, month, day⟩ ∧
      dayNumber ⟨(ofDayNumber n).year + 1, month, day⟩ ≤ n + 732 := by
  have hexists : Date.Exists ⟨(ofDayNumber n).year + 1, month, day⟩ :=
    ⟨hmonth, hday.1, Nat.le_trans hday.2 (le_monthLength _ _)⟩
  have hlt := dayNumber_lt (exists_ofDayNumber n) hexists (Or.inl (Int.lt_succ _))
  have hyears : ((ofDayNumber n).year + 1 - (ofDayNumber n).year).natAbs ≤ 1 := by omega
  have hnear := dayNumber_near hexists (exists_ofDayNumber n) hyears
  rw [dayNumber_ofDayNumber] at hlt hnear
  exact ⟨hexists, by omega, by omega⟩

end Date

namespace Schedule

variable {s : Schedule} {days months : FieldSet} {text : Field → List Char}
  {sets : Field → Set Int} {expression : String}

/-! ### The check -/

/-- **The check of days against months passes exactly if some year has a date for them.** -/
theorem isFeasible_iff (hdays : days.Between 1 31) (hmonths : months.Between 0 11) :
    isFeasible days months = true ↔
      ∃ date : Date, date.Exists ∧ date.day ∈ days ∧ date.month ∈ months := by
  constructor
  · intro h
    obtain ⟨month, hmonth, day, hday, hle⟩ := exists_of_isFeasible hdays.bounds
      (fun n hn => (hmonths.bounds n hn).2) hdays.nonempty hmonths.nonempty h
    exact ⟨⟨2000, month, day⟩, ⟨Nat.lt_succ_of_le (hmonths.bounds month hmonth).2,
      (hdays.bounds day hday).1, hle⟩, hday, hmonth⟩
  · rintro ⟨⟨year, month, day⟩, ⟨-, -, hle⟩, hday, hmonth⟩
    -- the earliest of the days is in the month if a later one is
    have hfirst : days.first?.any (· ≤ longestMonth month) = true := by
      cases hf : days.first? with
      | none => exact absurd ⟨hday, by omega⟩ (FieldSet.next?_eq_none_iff.mp hf day)
      | some first =>
        have hnear := (FieldSet.next?_eq_some_iff.mp hf).2 day ⟨hday, by omega⟩
        exact decide_eq_true
          (Nat.le_trans hnear (Nat.le_trans hle (monthLength_le_longestMonth year month)))
    rw [isFeasible, Bool.or_eq_true]
    exact Or.inr (List.any_eq_true.mpr ⟨month, hmonths.mem_toList.mpr hmonth, hfirst⟩)

/-! ### How long a schedule waits -/

/-- Where the weekday has no say, a day that the day field allows is admitted. -/
theorem admitsDay_of_mem_days {day : Nat} (weekday : Nat) (hany : s.anyWeekday = true)
    (hday : day ∈ s.days) : s.admitsDay day weekday none = true := by
  cases h : s.anyDay <;> simp [admitsDay, h, hany, hday]

/-- Where the weekday has a say, a day on a weekday that it allows is admitted. -/
theorem admitsDay_of_mem_weekdays {weekday : Nat} (day : Nat) (hany : s.anyWeekday = false)
    (hweekday : weekday ∈ s.weekdays) : s.admitsDay day weekday none = true := by
  cases h : s.anyDay <;> simp [admitsDay, h, hany, hweekday]

/-- **A day that is admitted lies among any 2922 days in a row.** -/
theorem Valid.exists_day_from (hv : s.Valid) (n : Int) : ∃ date : Date, date.Exists ∧
    date.month ∈ s.months ∧ s.admitsDay date.day date.weekday none = true ∧
    n ≤ date.dayNumber ∧ date.dayNumber < n + 2922 := by
  obtain ⟨month, hmonth, day, hday, hle⟩ := hv.feasible
  have hmonth' := Nat.lt_succ_of_le (hv.month_le month hmonth)
  cases hany : s.anyWeekday with
  | true =>
    obtain ⟨year, hexists, hfrom, hto⟩ :=
      Date.exists_leapYear_from hmonth' ⟨(hv.day_bounds day hday).1, hle⟩ n
    exact ⟨_, hexists, hmonth, admitsDay_of_mem_days _ hany hday, hfrom, by omega⟩
  | false =>
    obtain ⟨weekday, hweekday⟩ := hv.some_weekday
    obtain ⟨first, ⟨hone, hseven⟩, rfl⟩ :=
      Date.exists_weekday ((Date.ofDayNumber n).year + 1) month (hv.weekday_le weekday hweekday)
    obtain ⟨hexists, hfrom, hto⟩ := Date.nextYear_near hmonth' ⟨hone, by omega⟩ n
    exact ⟨_, hexists, hmonth, admitsDay_of_mem_weekdays _ hany hweekday, hfrom, by omega⟩

/-- A minute that is admitted lies within any 2922 days in a row that are in use. -/
theorem Valid.exists_admitted_from (hv : s.Valid) {first : Int}
    (hfirst : firstSecond ≤ first * 86400) (hlast : (first + 2922) * 86400 ≤ lastSecond + 1) :
    ∃ m : CivilMinute, m.InUse ∧ s.admits m = true ∧
      first ≤ m.toDate.dayNumber ∧ m.toDate.dayNumber < first + 2922 := by
  obtain ⟨date, hexists, hmonth, hday, hfrom, hto⟩ := hv.exists_day_from first
  have hready := ready_enterDay (d := .forward) hv hexists hmonth
  refine ⟨s.enterDay .forward date, ⟨?_, hready.exist.2⟩,
    admits_iff.mpr ⟨hready.minute, hready.hour, hready.month, hday⟩, hfrom, hto⟩
  exact (Date.inUse_iff_dayNumber hexists).mpr ⟨by omega, by omega⟩

/-! ### What is refused -/

/-- The expression is refused because none of its months ever has one of its days. -/
def LacksDate (expression : String) : Prop :=
  ∃ days months, parse expression = .error (.neverADate days months)

section

variable {set : Field → FieldSet} {weekdays : FieldSet}

/-- Fields that can be read pass the check exactly if some year has a date for them. -/
theorem isFeasible_iff_of_read (hread : ∀ f, FieldSet.read f (text f) = .ok (set f)) :
    isFeasible (set .day) ((set .month).shiftDown 1) = true ↔
      ∃ date : Date, date.Exists ∧ date.day ∈ set .day ∧ date.month + 1 ∈ set .month := by
  have hdays : (set .day).Between 1 31 := (FieldSet.fresh_of_read (hread .day)).between
  have hmonths : ((set .month).shiftDown 1).Between 0 11 :=
    (FieldSet.fresh_of_read (hread .month)).between.shiftDown (Nat.le_refl 1)
  simp only [isFeasible_iff hdays hmonths, FieldSet.mem_shiftDown]

/-- Where the weekday is a bare star, every minute that is admitted lies on one of the days. -/
theorem mem_days_of_admits_ofSets {whole : String} {m : CivilMinute}
    (hread : ∀ f, FieldSet.read f (text f) = .ok (set f)) (hstar : text .weekday = ['*'])
    (he : m.Exists) (hm : (ofSets whole text set weekdays).admits m = true) : m.day ∈ set .day := by
  have hday := (admits_iff.mp hm).2.2.2
  by_cases hany : text .day = ['*']
  · have hfull := hread .day
    rw [hany] at hfull
    have := he.bounds
    exact (FieldSet.mem_of_read_star hfull).mpr ⟨this.2.1.1, this.2.1.2⟩
  · simpa [admitsDay, ofSets, hany, hstar] using hday

end

/-- **An expression is refused for want of a date exactly if no year has one, and what is not
refused is due within 2922 days of any day.**  The five fields of the expression are taken to
describe something, and `s` is the schedule that they make, which the expression is read as unless
it is refused.  It is refused exactly if no year, before or after the calendar included, has a date on one
of the days in one of the months.  If it is refused and has a bare star for the weekday, `s` admits
nothing at all.  If it is not refused, `s` admits some minute among any 2922 days in a row that are
in use. -/
theorem parse_lacksDate_iff (hws : FallsInto expression.toList (Field.all.map text))
    (hsets : ∀ f : Field, f.Describes (text f) (sets f)) :
    ∃ s : Schedule,
      (s.Holds sets ∧ (s.anyDay = true ↔ text .day = ['*']) ∧
        (s.anyWeekday = true ↔ text .weekday = ['*'])) ∧
      (LacksDate expression ∨ parse expression = .ok s) ∧
      (LacksDate expression ↔ ¬ ∃ date : Date, date.Exists ∧ (date.day : Int) ∈ sets .day ∧
        (date.month : Int) + 1 ∈ sets .month) ∧
      (LacksDate expression → text .weekday = ['*'] →
        ∀ m : CivilMinute, m.Exists → s.admits m = false) ∧
      (parse expression = .ok s → ∀ first : Int, firstSecond ≤ first * 86400 →
        (first + 2922) * 86400 ≤ lastSecond + 1 →
        ∃ m : CivilMinute, m.InUse ∧ s.admits m = true ∧
          first ≤ m.toDate.dayNumber ∧ m.toDate.dayNumber < first + 2922) := by
  simp only [Field.describes_iff] at hsets
  choose set hread hset using hsets
  obtain rfl : sets = fun f => (set f).numbers := funext hset
  obtain ⟨weekdays, hfold⟩ := exists_foldSunday (FieldSet.fresh_of_read (hread .weekday))
  have hparse := (parse_of_fields hws).trans (ofFields_of_read _ hread hfold)
  have hfeasible : isFeasible (set .day) ((set .month).shiftDown 1) = true ↔
      ∃ date : Date, date.Exists ∧ (date.day : Int) ∈ (set .day).numbers ∧
        (date.month : Int) + 1 ∈ (set .month).numbers :=
    (isFeasible_iff_of_read hread).trans <| exists_congr fun _ => and_congr_right fun _ =>
      and_congr FieldSet.mem_numbers.symm FieldSet.mem_numbers.symm
  have hlacks : LacksDate expression ↔
      ¬ isFeasible (set .day) ((set .month).shiftDown 1) = true := by
    unfold LacksDate
    rw [hparse]
    split <;> simp_all
  refine ⟨ofSets (String.ofList (trim expression.toList)) text set weekdays,
    ⟨ofSets_holds _ text hfold, decide_eq_true_iff, decide_eq_true_iff⟩, ?_,
    hlacks.trans (not_congr hfeasible), fun hnone hstar m he => ?_, fun hs first hfirst hlast => ?_⟩
  · by_cases h : isFeasible (set .day) ((set .month).shiftDown 1) = true
    · exact Or.inr (hparse.trans (if_pos h))
    · exact Or.inl (hlacks.mpr h)
  · rw [Bool.eq_false_iff]
    intro hm
    exact hlacks.mp hnone ((isFeasible_iff_of_read hread).mpr ⟨m.toDate, he.1,
      mem_days_of_admits_ofSets hread hstar he hm,
      FieldSet.mem_shiftDown.mp (admits_iff.mp hm).2.2.1⟩)
  · exact (valid_of_parse hs).exists_admitted_from hfirst hlast

/-- February never has a 30th, so an expression that waits for one is refused, and would never have
been due.  It has a 29th within 2922 days of the first of March 1896, although 1900 was no leap
year. -/
theorem parse_lacksDate_iff_february :
    (LacksDate "0 0 30,31 2 *" ∧ ∃ (sets : Field → Set Int) (s : Schedule), s.Holds sets ∧
      (¬ ∃ date : Date, date.Exists ∧ (date.day : Int) ∈ sets .day ∧
        (date.month : Int) + 1 ∈ sets .month) ∧
      ∀ m : CivilMinute, m.Exists → s.admits m = false) ∧
    ∃ s, parse "0 0 29 2 *" = .ok s ∧ ∃ m : CivilMinute, m.InUse ∧ s.admits m = true ∧
      Date.dayNumber ⟨1896, 2, 1⟩ ≤ m.toDate.dayNumber ∧
      m.toDate.dayNumber < Date.dayNumber ⟨1896, 2, 1⟩ + 2922 := by
  constructor
  · let text : Field → List Char :=
      fun f => [['0'], ['0'], ['3', '0', ',', '3', '1'], ['2'], ['*']].getD f.index []
    have hread : ∀ f, ∃ set, FieldSet.read f (text f) = .ok set :=
      fun f => by cases f <;> exact ⟨_, rfl⟩
    choose set hread using hread
    have hlacks : LacksDate "0 0 30,31 2 *" := ⟨[30, 31], [2], by decide +kernel⟩
    have hws : FallsInto "0 0 30,31 2 *".toList (Field.all.map text) :=
      fallsInto_iff.mpr (by decide)
    obtain ⟨s, ⟨hholds, -⟩, -, hiff, hnever, -⟩ := parse_lacksDate_iff hws fun f =>
      Field.describes_iff.mpr ⟨set f, hread f, rfl⟩
    exact ⟨hlacks, _, s, hholds, hiff.mp hlacks, hnever hlacks rfl⟩
  · obtain ⟨s, hs, -⟩ := exists_of_parse "0 0 29 2 *" (fun _ => True) (by decide +kernel)
    obtain ⟨text, hws, hfields⟩ := exists_fields_of_parse hs
    obtain ⟨set, -, hread, -⟩ := ofFields_eq_ok.mp hfields
    obtain ⟨s', -, hends, -, -, hdue⟩ := parse_lacksDate_iff hws fun f =>
      Field.describes_iff.mpr ⟨set f, hread f, rfl⟩
    rcases hends with ⟨_, _, herr⟩ | hs'
    · rw [hs] at herr
      cases herr
    · obtain rfl : s = s' := Except.ok.inj (hs.symm.trans hs')
      exact ⟨s, hs, hdue hs _ (by decide) (by decide)⟩

end Schedule

end Crontab
