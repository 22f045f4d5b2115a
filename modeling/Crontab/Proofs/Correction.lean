import Crontab.Proofs.MinuteOrder
import Crontab.Proofs.Valid
import Crontab.Schedule.Seek

/-! # What a correction passes over

A search moves by corrections, each of which takes the coarsest field that stands in the
way to its next value.  **No correction leaves an admitted minute behind**
(`Schedule.corrects_of_correct?`): whatever the schedule admits from a minute on, it admits
from the corrected minute on (`Schedule.Corrects.ahead`).

A correction is one of four moves, each of which rests on the next coarser one where its
own field has nothing more to offer: to another minute, to another hour, out of the day,
out of the month.  What a move is owed is that the field it gives up has no admitted
minute left, and the lemmas of this module say so move by move.
-/

namespace Crontab

open Outcome

/-- The months up to a month, from the start of the year 0. -/
def monthIndex (year : Int) (month : Nat) : Int := year * 12 + month

namespace CivilMinute

/-- A search that sets out from `c` comes to `m`, or is there already. -/
def Ahead (d : Direction) (c m : CivilMinute) : Prop := d.Reaches c.rank m.rank

variable {d : Direction} {c m : CivilMinute}

/-- What lies ahead lies on a later day, or in a later hour or at a later minute of the
same. -/
theorem Ahead.cases (hc : c.Exists) (hm : m.Exists) (h : c.Ahead d m) :
    d.Passes c.toDate.rank m.toDate.rank ∨ c.toDate = m.toDate ∧
      (d.Passes c.hour m.hour ∨ c.hour = m.hour ∧ d.Reaches c.minute m.minute) := by
  have := hc.bounds
  have := hm.bounds
  by_cases hdate : c.toDate.rank = m.toDate.rank
  · refine Or.inr ⟨Date.rank_inj hc.1 hm.1 hdate, ?_⟩
    cases d <;> simp only [Ahead, rank, Direction.Reaches, Direction.Passes] at h ⊢ <;> omega
  · refine Or.inl ?_
    cases d <;> simp only [Ahead, rank, Direction.Reaches, Direction.Passes] at h ⊢ <;> omega

/-- What lies on a later day lies in the same month or in a later one. -/
theorem Ahead.monthIndex (hc : c.Exists) (hm : m.Exists) (h : c.Ahead d m) :
    d.Passes (Crontab.monthIndex c.year c.month) (Crontab.monthIndex m.year m.month) ∨
      c.year = m.year ∧ c.month = m.month := by
  have := hc.bounds
  have := hm.bounds
  by_cases hsame : c.year = m.year ∧ c.month = m.month
  · exact Or.inr hsame
  · refine Or.inl ?_
    cases d <;> simp only [Ahead, rank, Date.rank, Crontab.monthIndex, Direction.Reaches,
      Direction.Passes] at h ⊢ <;> omega

end CivilMinute

namespace Schedule

variable {s : Schedule} {d : Direction} {c c' m : CivilMinute}

theorem admits_iff : s.admits m = true ↔ m.minute ∈ s.minutes ∧ m.hour ∈ s.hours ∧
    m.month ∈ s.months ∧ s.admitsDay m.day m.toDate.weekday none = true := by
  simp [admits, and_assoc]

/-- A day that the month has is admitted whether or not one looks at the length of the
month. -/
theorem admitsDay_length {day weekday length : Nat} (h : day ≤ length) :
    s.admitsDay day weekday (some length) = s.admitsDay day weekday none := by
  simp [admitsDay, h]

/-- Where the day field alone decides, it allows every admitted day. -/
theorem mem_days_of_admits (hv : s.Valid) (he : m.Exists) (hm : s.admits m = true)
    (hmode : s.eitherDay = false) : m.day ∈ s.days := by
  have hday := (admits_iff.mp hm).2.2.2
  have := he.bounds
  cases ha : s.anyDay with
  | true => exact hv.every_day ha m.day (by omega) (by omega)
  | false =>
    have hw : s.anyWeekday = true := by simpa [eitherDay, ha] using hmode
    simpa [admitsDay, ha, hw] using hday

/-- **A minute at which only the day may stand in the way**, which is where every
correction leads. -/
structure Ready (s : Schedule) (c : CivilMinute) : Prop where
  exist : c.Exists
  month : c.month ∈ s.months
  hour : c.hour ∈ s.hours
  minute : c.minute ∈ s.minutes

/-- **What a correction does**: it goes on, to a minute at which only the day may stand in
the way, and leaves no admitted minute behind. -/
structure Corrects (s : Schedule) (d : Direction) (c c' : CivilMinute) : Prop where
  ready : s.Ready c'
  passes : d.Passes c.rank c'.rank
  ahead : ∀ m, m.Exists → s.admits m = true → c.Ahead d m → c'.Ahead d m

/-! ### Entering a day -/

theorem ready_enterDay (hv : s.Valid) {date : Date} (he : date.Exists)
    (hmonth : date.month ∈ s.months) : s.Ready (s.enterDay d date) := by
  have hh := Direction.start_mem (d := d) hv.some_hour
  have hmin := Direction.start_mem (d := d) hv.some_minute
  exact ⟨⟨he, Nat.lt_succ_of_le (hv.hour_le _ hh), Nat.lt_succ_of_le (hv.minute_le _ hmin)⟩,
    hmonth, hh, hmin⟩

/-- A day is entered before its first admitted minute. -/
theorem ahead_enterDay (hv : s.Valid) {date : Date} (he : m.Exists) (hm : s.admits m = true)
    (h : d.Reaches date.rank m.toDate.rank) : (s.enterDay d date).Ahead d m := by
  obtain ⟨hmin, hhour, -, -⟩ := admits_iff.mp hm
  have h1 := hv.hour_le _ (Direction.start_mem (d := d) hv.some_hour)
  have h2 := hv.minute_le _ (Direction.start_mem (d := d) hv.some_minute)
  have h3 := Direction.reaches_start (d := d) hhour
  have h4 := Direction.reaches_start (d := d) hmin
  have := he.bounds
  cases d <;> simp only [CivilMinute.Ahead, CivilMinute.rank, enterDay, Direction.Reaches] at * <;>
    omega

/-! ### Out of the month -/

/-- The next month that the schedule allows is the nearest beyond. -/
theorem monthBeyond_spec (hv : s.Valid) (year : Int) {month : Nat} (hmonth : month < 12) :
    (s.monthBeyond d year month).2 ∈ s.months ∧
      d.Passes (monthIndex year month)
        (monthIndex (s.monthBeyond d year month).1 (s.monthBeyond d year month).2) ∧
      ∀ (y : Int) (n : Nat), n ∈ s.months → d.Passes (monthIndex year month) (monthIndex y n) →
        d.Reaches (monthIndex (s.monthBeyond d year month).1 (s.monthBeyond d year month).2)
          (monthIndex y n) := by
  unfold monthBeyond
  cases hf : d.find? s.months (month + d.sign) with
  | some k =>
    obtain ⟨⟨hk, hkr⟩, hnear⟩ := Direction.find?_eq_some_iff.mp hf
    have := hv.month_le k hk
    refine ⟨hk, ?_, fun y n hn hp => ?_⟩
    · cases d <;>
        simp only [Direction.Reaches, Direction.Passes, Direction.sign, monthIndex] at * <;> omega
    · have hle := hv.month_le n hn
      have := hnear n
      cases d <;>
        simp only [Direction.Reaches, Direction.Passes, Direction.sign, monthIndex] at * <;> grind
  | none =>
    have hnone := Direction.find?_eq_none_iff.mp hf
    obtain ⟨k, hk, -⟩ := hv.feasible
    obtain ⟨hs, hstart⟩ := Direction.start_spec (d := d) hk
    have := hv.month_le _ hs
    refine ⟨hs, ?_, fun y n hn hp => ?_⟩
    · cases d <;> simp only [Direction.Passes, Direction.sign, monthIndex] at * <;> omega
    · have hle := hv.month_le n hn
      have h1 := hnone n
      have h2 := hstart n hn
      cases d <;>
        simp only [Direction.Reaches, Direction.Passes, Direction.sign, monthIndex] at * <;> grind

/-- A month with a day to look at is entered at a day that it has, with none of its admitted
days before. -/
theorem landingDay?_eq_some (hv : s.Valid) {year : Int} {month day : Nat}
    (h : s.landingDay? d year month = some day) :
    (1 ≤ day ∧ day ≤ monthLength year month) ∧ ∀ m : CivilMinute, m.Exists → s.admits m = true →
      m.year = year → m.month = month → d.Reaches day m.day := by
  have hlen := Date.le_monthLength year month
  cases d <;> cases hmode : s.eitherDay <;> simp only [landingDay?, hmode] at h
  · obtain ⟨hfirst, hle⟩ := Option.filter_eq_some_iff.mp h
    obtain ⟨⟨hmem, -⟩, hnear⟩ := FieldSet.next?_eq_some_iff.mp hfirst
    refine ⟨⟨(hv.day_bounds day hmem).1, of_decide_eq_true hle⟩, fun m he hm _ _ => ?_⟩
    exact Int.ofNat_le.mpr (hnear m.day ⟨mem_days_of_admits hv he hm hmode, by omega⟩)
  · cases h
    exact ⟨⟨by omega, by omega⟩, fun m he _ _ _ => Int.ofNat_le.mpr he.1.2.1⟩
  · obtain ⟨⟨hmem, hle⟩, hnear⟩ := FieldSet.prev?_eq_some_iff.mp h
    refine ⟨⟨(hv.day_bounds day hmem).1, Int.ofNat_le.mp hle⟩, fun m he hm hy hmo => ?_⟩
    have hin := he.1.2.2
    rw [hy, hmo] at hin
    exact Int.ofNat_le.mpr
      (hnear m.day ⟨mem_days_of_admits hv he hm hmode, Int.ofNat_le.mpr hin⟩)
  · cases h
    refine ⟨⟨by omega, by omega⟩, fun m he _ hy hmo => ?_⟩
    have hin := he.1.2.2
    rw [hy, hmo] at hin
    exact Int.ofNat_le.mpr hin

/-- A month without a day to look at has no day that the day field allows. -/
theorem landingDay?_eq_none {year : Int} {month : Nat} (h : s.landingDay? d year month = none) :
    s.eitherDay = false ∧ ∀ day ∈ s.days, monthLength year month < day := by
  cases d <;> cases hmode : s.eitherDay <;> simp only [landingDay?, hmode] at h
  · refine ⟨rfl, fun day hday => ?_⟩
    cases hfirst : s.days.first? with
    | none => exact absurd ⟨hday, by omega⟩ (FieldSet.next?_eq_none_iff.mp hfirst day)
    | some first =>
      have hlt : monthLength year month < first := by simpa [hfirst, Option.filter] using h
      have := (FieldSet.next?_eq_some_iff.mp hfirst).2 day ⟨hday, by omega⟩
      omega
  · cases h
  · refine ⟨rfl, fun day hday => ?_⟩
    apply Nat.lt_of_not_le
    intro hle
    exact FieldSet.prev?_eq_none_iff.mp h day ⟨hday, Int.ofNat_le.mpr hle⟩
  · cases h

/-- Hopping from month to month leaves no admitted minute behind. -/
theorem enterMonth_spec (hv : s.Valid) : ∀ {hops : Nat} {year : Int} {month : Nat}, month < 12 →
    s.enterMonth d hops year month = .ok c' →
    s.Ready c' ∧ d.Passes (monthIndex year month) (monthIndex c'.year c'.month) ∧
      ∀ m : CivilMinute, m.Exists → s.admits m = true →
        d.Passes (monthIndex year month) (monthIndex m.year m.month) → c'.Ahead d m
  | 0, _, _, _, h => by cases h
  | hops + 1, year, month, hmonth, h => by
      obtain ⟨hmem, hpass, hnear⟩ := monthBeyond_spec (d := d) hv year hmonth
      rw [enterMonth] at h
      generalize s.monthBeyond d year month = next at *
      obtain ⟨year', month'⟩ := next
      have hle := hv.month_le _ hmem
      simp only at *
      -- an admitted minute beyond lies in the month that is entered, or beyond that one
      have hbeyond : ∀ m : CivilMinute, m.Exists → s.admits m = true →
          d.Passes (monthIndex year month) (monthIndex m.year m.month) →
          m.year = year' ∧ m.month = month' ∨
            d.Passes (monthIndex year' month') (monthIndex m.year m.month) := by
        intro m he hm hp
        have := he.bounds
        have := hnear m.year m.month (admits_iff.mp hm).2.2.1 hp
        cases d <;> simp only [Direction.Reaches, Direction.Passes, monthIndex] at * <;> omega
      cases hland : s.landingDay? d year' month' with
      | some day =>
          rw [hland] at h
          cases h
          obtain ⟨hday, hfirst⟩ := landingDay?_eq_some hv hland
          refine ⟨ready_enterDay hv ⟨Nat.lt_succ_of_le hle, hday⟩ hmem, hpass, ?_⟩
          intro m he hm hp
          apply ahead_enterDay hv he hm
          have := he.bounds
          have := Date.monthLength_le year' month'
          rcases hbeyond m he hm hp with ⟨hy, hmo⟩ | hp
          · have := hfirst m he hm hy hmo
            simp only [Date.rank, hy, hmo]
            cases d <;> simp only [Direction.Reaches] at * <;> omega
          · cases d <;>
              simp only [Direction.Reaches, Direction.Passes, monthIndex, Date.rank] at * <;> omega
      | none =>
          rw [hland] at h
          obtain ⟨hmode, hnone⟩ := landingDay?_eq_none hland
          obtain ⟨hready, hpass', hahead⟩ := enterMonth_spec hv (Nat.lt_succ_of_le hle) h
          refine ⟨hready, ?_, ?_⟩
          · cases d <;> simp only [Direction.Passes] at * <;> omega
          · intro m he hm hp
            rcases hbeyond m he hm hp with ⟨hy, hmo⟩ | hp
            · have hlt := hnone _ (mem_days_of_admits hv he hm hmode)
              have hin := he.1.2.2
              rw [hy, hmo] at hin
              omega
            · exact hahead m he hm hp

/-- Leaving a month is right where the month has no admitted minute left. -/
theorem corrects_leaveMonth (hv : s.Valid) (hc : c.Exists) (h : s.leaveMonth d c = .ok c')
    (hleft : ∀ m : CivilMinute, m.Exists → s.admits m = true → c.Ahead d m →
      ¬ (c.year = m.year ∧ c.month = m.month)) : s.Corrects d c c' := by
  obtain ⟨hready, hpass, hahead⟩ := enterMonth_spec hv hc.1.1 h
  refine ⟨hready, ?_, fun m he hm ha => ?_⟩
  · have := hc.bounds
    have := hready.exist.bounds
    cases d <;> simp only [Direction.Passes, monthIndex, CivilMinute.rank, Date.rank] at * <;> omega
  · exact hahead m he hm ((ha.monthIndex hc he).resolve_right (hleft m he hm ha))

/-! ### Out of the day -/

/-- Leaving a day is right where the day has no admitted minute left. -/
theorem corrects_leaveDay (hv : s.Valid) (hc : c.Exists) (hmonth : c.month ∈ s.months)
    (h : s.leaveDay d c = .ok c')
    (hleft : ∀ m : CivilMinute, m.Exists → s.admits m = true → c.Ahead d m →
      c.toDate ≠ m.toDate) : s.Corrects d c c' := by
  have hbound := hc.bounds
  have hlen := hc.1.2.2
  -- an admitted minute of the month lies on a later day
  have hlater : ∀ m : CivilMinute, m.Exists → s.admits m = true → c.Ahead d m →
      c.year = m.year ∧ c.month = m.month → d.Passes c.day m.day := by
    rintro m he hm ha ⟨hy, hmo⟩
    rcases ha.cases hc he with hp | ⟨hdate, -⟩
    · cases d <;> simp only [Direction.Passes, Date.rank, hy, hmo] at hp ⊢ <;> omega
    · exact absurd hdate (hleft m he hm ha)
  unfold leaveDay at h
  extract_lets target candidate at h
  have htarget : ∀ n : Nat, d.Passes c.day n ↔ d.Reaches target n :=
    fun n => Direction.reaches_add_sign.symm
  cases hcand : candidate with
  | none =>
    rw [hcand] at h
    refine corrects_leaveMonth hv hc h fun m he hm ha hsame => ?_
    have hp := (htarget _).mp (hlater m he hm ha hsame)
    have := he.bounds
    simp only [candidate] at hcand
    split at hcand
    · split at hcand
      · cases hcand
      · cases d <;> simp only [Direction.Reaches, target, Direction.sign] at * <;> omega
    · rename_i hmode
      exact Direction.find?_eq_none_iff.mp hcand m.day
        ⟨mem_days_of_admits hv he hm (by simpa using hmode), hp⟩
  | some day =>
    rw [hcand] at h
    -- the candidate is the nearest day on which an admitted minute may lie
    have hday : d.Passes c.day day ∧ 1 ≤ day ∧ ∀ m : CivilMinute, m.Exists → s.admits m = true →
        d.Passes c.day m.day → d.Reaches day m.day := by
      simp only [candidate] at hcand
      split at hcand
      · split at hcand
        · cases hcand
          rename_i hpos
          have hcast : ((target.toNat : Nat) : Int) = target := Int.toNat_of_nonneg (by omega)
          refine ⟨?_, by omega, fun m he hm hp => ?_⟩
          · rw [htarget, hcast]
            exact Direction.reaches_refl _ _
          · rw [hcast]
            exact (htarget _).mp hp
        · cases hcand
      · rename_i hmode
        obtain ⟨⟨hmem, hr⟩, hnear⟩ := Direction.find?_eq_some_iff.mp hcand
        refine ⟨(htarget _).mpr hr, (hv.day_bounds day hmem).1, fun m he hm hp => ?_⟩
        exact hnear m.day ⟨mem_days_of_admits hv he hm (by simpa using hmode), (htarget _).mp hp⟩
    obtain ⟨hpass, hpos, hnear⟩ := hday
    simp only at h
    split at h
    · rename_i hle
      cases h
      have hdate : Date.Exists ⟨c.year, c.month, day⟩ := ⟨hc.1.1, hpos, hle⟩
      have hready := ready_enterDay (d := d) hv hdate hmonth
      have := hready.exist.bounds
      refine ⟨hready, ?_, fun m he hm ha => ahead_enterDay hv he hm ?_⟩
      · cases d <;>
          simp only [Direction.Passes, CivilMinute.rank, Date.rank, enterDay] at * <;> omega
      · have := he.bounds
        have := Date.monthLength_le c.year c.month
        rcases ha.monthIndex hc he with hp | hsame
        · cases d <;>
            simp only [Direction.Reaches, Direction.Passes, monthIndex, Date.rank] at * <;> omega
        · have := hnear m he hm (hlater m he hm ha hsame)
          simp only [Date.rank, hsame.1, hsame.2]
          cases d <;> simp only [Direction.Reaches] at * <;> omega
    · rename_i hlong
      refine corrects_leaveMonth hv hc h fun m he hm ha hsame => ?_
      have hr := hnear m he hm (hlater m he hm ha hsame)
      have hin := he.1.2.2
      rw [← hsame.1, ← hsame.2] at hin
      cases d <;> simp only [Direction.Reaches, Direction.Passes] at * <;> omega

/-! ### Within the day -/

/-- Moving the hour is right where the hours before `target` have no admitted minute left. -/
theorem corrects_moveHour (hv : s.Valid) (hc : c.Exists) (hmonth : c.month ∈ s.months)
    {target : Int} (h : s.moveHour d c target = .ok c')
    (htarget : ∀ n ∈ s.hours, d.Reaches target n → d.Passes c.hour n)
    (hleft : ∀ m : CivilMinute, m.Exists → s.admits m = true → c.Ahead d m →
      c.toDate = m.toDate → d.Reaches target m.hour) : s.Corrects d c c' := by
  unfold moveHour at h
  cases hf : d.find? s.hours target with
  | none =>
    rw [hf] at h
    refine corrects_leaveDay hv hc hmonth h fun m he hm ha hdate => ?_
    exact Direction.find?_eq_none_iff.mp hf m.hour
      ⟨(admits_iff.mp hm).2.1, hleft m he hm ha hdate⟩
  | some hour =>
    rw [hf] at h
    cases h
    obtain ⟨⟨hmem, hr⟩, hnear⟩ := Direction.find?_eq_some_iff.mp hf
    have hstart := Direction.start_mem (d := d) hv.some_minute
    have hpass := htarget hour hmem hr
    have := hc.bounds
    have := hv.hour_le hour hmem
    have := hv.minute_le _ hstart
    refine ⟨⟨⟨hc.1, by simp only; omega, by simp only; omega⟩, hmonth, hmem, hstart⟩, ?_, ?_⟩
    · cases d <;> simp only [Direction.Passes, CivilMinute.rank] at * <;> omega
    · intro m he hm ha
      have := he.bounds
      rcases ha.cases hc he with hp | ⟨hdate, -⟩
      · cases d <;> simp only [CivilMinute.Ahead, Direction.Reaches, Direction.Passes,
          CivilMinute.rank] at * <;> omega
      · obtain ⟨hmin, hhour, -, -⟩ := admits_iff.mp hm
        have h1 := hnear m.hour ⟨hhour, hleft m he hm ha hdate⟩
        have h2 := Direction.reaches_start (d := d) hmin
        simp only [CivilMinute.Ahead, CivilMinute.rank, hdate]
        cases d <;> simp only [Direction.Reaches] at * <;> omega

/-- Moving the minute is right where the minute itself is not allowed. -/
theorem corrects_moveMinute (hv : s.Valid) (hc : c.Exists) (hmonth : c.month ∈ s.months)
    (hhour : c.hour ∈ s.hours) (hminute : c.minute ∉ s.minutes)
    (h : s.moveMinute d c = .ok c') : s.Corrects d c c' := by
  unfold moveMinute at h
  cases hf : d.find? s.minutes c.minute with
  | none =>
    rw [hf] at h
    refine corrects_moveHour hv hc hmonth h (fun n _ => Direction.reaches_add_sign.mp) ?_
    intro m he hm ha hdate
    rcases ha.cases hc he with hp | ⟨-, hp | ⟨-, hr⟩⟩
    · rw [hdate] at hp
      exact absurd (Direction.reaches_refl d _) (Direction.not_reaches.mpr hp)
    · exact Direction.reaches_add_sign.mpr hp
    · exact absurd ⟨(admits_iff.mp hm).1, hr⟩ (Direction.find?_eq_none_iff.mp hf m.minute)
  | some minute =>
    rw [hf] at h
    cases h
    obtain ⟨⟨hmem, hr⟩, hnear⟩ := Direction.find?_eq_some_iff.mp hf
    have hne : minute ≠ c.minute := fun he => hminute (he ▸ hmem)
    have := hc.bounds
    have := hv.minute_le minute hmem
    refine ⟨⟨⟨hc.1, hc.2.1, Nat.lt_succ_of_le this⟩, hmonth, hhour, hmem⟩, ?_, ?_⟩
    · cases d <;> simp only [Direction.Reaches, Direction.Passes, CivilMinute.rank] at * <;> omega
    · intro m he hm ha
      have := he.bounds
      rcases ha.cases hc he with hp | ⟨hdate, hp | ⟨hsame, hr⟩⟩
      · cases d <;> simp only [CivilMinute.Ahead, Direction.Reaches, Direction.Passes,
          CivilMinute.rank] at * <;> omega
      · simp only [CivilMinute.Ahead, CivilMinute.rank, hdate]
        cases d <;> simp only [Direction.Reaches, Direction.Passes] at * <;> omega
      · have := hnear m.minute ⟨(admits_iff.mp hm).1, hr⟩
        simp only [CivilMinute.Ahead, CivilMinute.rank, hdate, hsame]
        cases d <;> simp only [Direction.Reaches] at * <;> omega

/-! ### The correction of a minute -/

/-- A minute of the same day is admitted only if the day is. -/
theorem admitsDay_of_admits (he : m.Exists) (hm : s.admits m = true) (h : c.toDate = m.toDate) :
    s.admitsDay c.day c.toDate.weekday (some (monthLength c.year c.month)) = true := by
  have hin := he.1.2.2
  rw [← h] at hin
  rw [admitsDay_length hin, h]
  exact (admits_iff.mp hm).2.2.2

/-- **The outcomes of a look at a minute**: the coarsest field that stands in the way is
corrected, and if none does the minute stands. -/
theorem correct?_eq_ok {next : Option CivilMinute} (h : s.correct? d c = .ok next) :
    (c.month ∉ s.months ∧ ∃ c', s.leaveMonth d c = .ok c' ∧ next = some c') ∨
    c.month ∈ s.months ∧ c.toDate.InUse ∧
      ((s.admitsDay c.day c.toDate.weekday (some (monthLength c.year c.month)) = false ∧
        ∃ c', s.leaveDay d c = .ok c' ∧ next = some c') ∨
      s.admitsDay c.day c.toDate.weekday (some (monthLength c.year c.month)) = true ∧
        ((c.hour ∉ s.hours ∧ ∃ c', s.moveHour d c c.hour = .ok c' ∧ next = some c') ∨
        c.hour ∈ s.hours ∧
          ((c.minute ∉ s.minutes ∧ ∃ c', s.moveMinute d c = .ok c' ∧ next = some c') ∨
          c.minute ∈ s.minutes ∧ next = none))) := by
  have moved {x : Except SearchError CivilMinute} (hx : x.map some = .ok next) :
      ∃ c', x = .ok c' ∧ next = some c' := by
    obtain ⟨c', hc', he⟩ := map_eq_ok.mp hx
    exact ⟨c', hc', he.symm⟩
  unfold correct? at h
  split at h
  · rename_i hmonth
    exact Or.inl ⟨hmonth, moved h⟩
  rename_i hmonth
  split at h
  · cases h
  rename_i huse
  refine Or.inr ⟨Classical.not_not.mp hmonth, Classical.not_not.mp huse, ?_⟩
  split at h
  · rename_i hday
    exact Or.inl ⟨by simpa using hday, moved h⟩
  rename_i hday
  refine Or.inr ⟨by simpa using hday, ?_⟩
  split at h
  · rename_i hhour
    exact Or.inl ⟨hhour, moved h⟩
  rename_i hhour
  refine Or.inr ⟨Classical.not_not.mp hhour, ?_⟩
  split at h
  · rename_i hminute
    exact Or.inl ⟨hminute, moved h⟩
  · rename_i hminute
    cases h
    exact Or.inr ⟨Classical.not_not.mp hminute, rfl⟩

/-- **No correction leaves an admitted minute behind.** -/
theorem corrects_of_correct? (hv : s.Valid) (hc : c.Exists)
    (h : s.correct? d c = .ok (some c')) : s.Corrects d c c' := by
  rcases correct?_eq_ok h with ⟨hmonth, _, hnext, he⟩ | ⟨hmonth, -, h⟩
  · cases he
    refine corrects_leaveMonth hv hc hnext fun m _ hm _ hsame => hmonth ?_
    rw [hsame.2]
    exact (admits_iff.mp hm).2.2.1
  rcases h with ⟨hday, _, hnext, he⟩ | ⟨-, h⟩
  · cases he
    refine corrects_leaveDay hv hc hmonth hnext fun m he hm _ hdate => ?_
    rw [admitsDay_of_admits he hm hdate] at hday
    cases hday
  rcases h with ⟨hhour, _, hnext, he⟩ | ⟨hhour, ⟨hminute, _, hnext, he⟩ | ⟨-, he⟩⟩
  · cases he
    refine corrects_moveHour hv hc hmonth hnext ?_ ?_
    · intro n hn hr
      rcases Direction.reaches_iff.mp hr with heq | hp
      · exact absurd (Int.ofNat_inj.mp heq ▸ hn) hhour
      · exact hp
    · intro m he hm ha hdate
      rcases ha.cases hc he with hp | ⟨-, hp | ⟨hsame, -⟩⟩
      · rw [hdate] at hp
        exact absurd (Direction.reaches_refl d _) (Direction.not_reaches.mpr hp)
      · exact Direction.reaches_iff.mpr (Or.inr hp)
      · exact Direction.reaches_iff.mpr (Or.inl (congrArg Int.ofNat hsame))
  · cases he
    exact corrects_moveMinute hv hc hmonth hhour hminute hnext
  · cases he

/-- Where no correction is due, the minute is in use and admitted. -/
theorem admits_of_correct?_eq_none (hc : c.Exists) (h : s.correct? d c = .ok none) :
    c.InUse ∧ s.admits c = true := by
  rcases correct?_eq_ok h with ⟨-, _, -, he⟩ | ⟨hmonth, huse, ⟨-, _, -, he⟩ | ⟨hday, h⟩⟩
  · cases he
  · cases he
  rcases h with ⟨-, _, -, he⟩ | ⟨hhour, ⟨-, _, -, he⟩ | ⟨hminute, -⟩⟩
  · cases he
  · cases he
  · rw [admitsDay_length huse.2.2.2] at hday
    exact ⟨⟨huse, hc.2⟩, admits_iff.mpr ⟨hminute, hhour, hmonth, hday⟩⟩

end Schedule

end Crontab
