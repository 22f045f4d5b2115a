import Crontab.Proofs.Finding
import Crontab.Proofs.OffCalendar
import Crontab.Question

/-! # What a search looks up

A search reads the clock at its origin, then looks up one admitted minute after the other, then its
own minute, and setting out once more the minutes from there (`Schedule.LooksUp`).  Each lookup
that comes to no reading stops it, and nothing else does so.  Hence **a search comes to no reading
exactly if something that it looks up lies off the calendar** (`Schedule.noReading_iff`).

The induction is on the attempts: a search comes to the nearest minute, and past it to what it
comes to from the minute after (`Schedule.Nearest.comesTo_succ_iff`).
-/

namespace Crontab

open Outcome

namespace Schedule

variable {s : Schedule} {z : Zone} {d : Direction} {origin t : Instant} {start w : WallTime}
  {c m next : CivilMinute} {n : Nat}

/-- **A search past `origin` comes to the minute `m`** in one of `n` attempts: no minute before has
an instant past the origin. -/
structure ComesTo (s : Schedule) (z : Zone) (d : Direction) (origin : Instant) (n : Nat)
    (start m : CivilMinute) : Prop where
  amongNearest : s.AmongNearest d n start m
  before : ∀ m', s.Candidate d start m' → d.Passes m'.number m.number →
    z.Resolves d origin m' none

theorem Nearest.comesTo (hc : s.Nearest d start.civil c) :
    s.ComesTo z d origin (n + 1) start.civil c :=
  ⟨hc.amongNearest, fun m' hm' hp => absurd (hc.reaches m' hm') (Direction.not_reaches.mpr hp)⟩

/-- **Past a nearest minute without an instant a search comes to what it comes to from the minute
after.** -/
theorem Nearest.comesTo_succ_iff (hc : s.Nearest d start.civil c) (he : next.Exists)
    (hnext : next.number = c.number + d.sign) (hnone : z.Resolves d origin c none) :
    s.ComesTo z d origin (n + 1) start.civil m ↔ m = c ∨ s.ComesTo z d origin n next m := by
  have hcand := fun {m} => hc.candidate_iff (m := m) he hnext
  constructor
  · rintro ⟨hamong, hbefore⟩
    rcases (hc.amongNearest_succ_iff he hnext).mp hamong with rfl | hamong
    · exact Or.inl rfl
    · exact Or.inr ⟨hamong, fun m' hm' hp => hbefore m' (hcand.mp hm').1 hp⟩
  · rintro (rfl | ⟨hamong, hbefore⟩)
    · exact hc.comesTo
    · refine ⟨(hc.amongNearest_succ_iff he hnext).mpr (Or.inr hamong), fun m' hm' hp => ?_⟩
      by_cases hmc : m' = c
      · exact hmc ▸ hnone
      · exact hbefore m' (hcand.mpr ⟨hm', hc.passes_of_ne hm' hmc⟩) hp

theorem not_comesTo_zero : ¬ s.ComesTo z d origin 0 start.civil m := fun h =>
  absurd (h.amongNearest.2 [] List.Pairwise.nil (by simp)) (Nat.lt_irrefl 0)

/-- **The attempts of a search come to no reading exactly if they come to a minute that lies off
the calendar.** -/
theorem firstPast_eq_noReading (hv : s.Valid) (hz : z.Calm) :
    s.firstPast z d origin n start = .error .noReading ↔
      ∃ m, s.ComesTo z d origin n start.civil m ∧ z.OffCalendar (m.number * 60) := by
  induction n generalizing start with
  | zero =>
    constructor
    · intro h
      cases h
    · rintro ⟨m, hm, -⟩
      exact absurd hm not_comesTo_zero
  | succ n ih =>
    constructor
    · intro h
      rcases bind_eq_error.mp h with hseek | ⟨c, hseek, h⟩
      · rcases seek_eq_error hv start.civil_inUse.exists hseek with he | ⟨he, -⟩ <;> cases he
      have hc := nearest_of_seek hv hseek
      obtain ⟨w, hw, hs, hn, -⟩ := CivilMinute.exists_toWall? hc.candidate.inUse
      rw [hw] at h
      rcases bind_eq_error.mp h with h | ⟨_, ⟨⟩, h⟩
      · cases h
      rcases bind_eq_error.mp h with hshowing | ⟨ts, hts, h⟩
      · -- the nearest minute itself cannot be looked up
        rw [hz.showing_eq_noReading (Stamp.not_isLeap_of_nano_eq_zero hn), hs] at hshowing
        exact ⟨c, hc.comesTo, hshowing⟩
      cases hpick : d.pick origin ts with
      | some t =>
        rw [hpick] at h
        cases h
      | none =>
        rw [hpick] at h
        rcases bind_eq_error.mp h with hadd | ⟨next, hadd, h⟩
        · cases hadd' : w.add? d.minute <;> simp [hadd', orOutOfCalendar] at hadd
        obtain ⟨m, hm, hoff⟩ := ih.mp h
        have hnext := civil_of_add_minute hs hn (orOutOfCalendar_eq_ok.mp hadd)
        exact ⟨m, (hc.comesTo_succ_iff next.civil_inUse.exists hnext
          ⟨w, ts, hw, hts, hpick⟩).mpr (Or.inr hm), hoff⟩
    · rintro ⟨m, hm, hoff⟩
      obtain ⟨c, w, hseek, hc, hw, hgoes⟩ := hm.amongNearest.1.exists_nearest hv
      obtain ⟨hs, -, -⟩ := CivilMinute.figures_of_toWall? hw
      refine bind_eq_error.mpr (Or.inr ⟨c, hseek, bind_eq_error.mpr (Or.inr ⟨w,
        orOutOfCalendar_eq_ok.mpr hw, bind_eq_error.mpr ?_⟩)⟩)
      by_cases hmc : m = c
      · subst hmc
        exact Or.inl (Zone.showing_of_offCalendar (hs ▸ hoff))
      · obtain ⟨next, hadd, hnext⟩ := hgoes hmc
        have hnone := hm.before c hc.candidate (hc.passes_of_ne hm.amongNearest.1 hmc)
        have hrest := ih.mpr ⟨m, ((hc.comesTo_succ_iff next.civil_inUse.exists hnext hnone).mp
          hm).resolve_left hmc, hoff⟩
        obtain ⟨w', ts, hw', hts, hpick⟩ := hnone
        obtain rfl : w = w' := Option.some.inj (hw.symm.trans hw')
        refine Or.inr ⟨ts, hts, ?_⟩
        rw [hpick]
        exact bind_eq_error.mpr (Or.inr ⟨next, orOutOfCalendar_eq_ok.mpr hadd, hrest⟩)

/-- **What a search past `origin` looks up on the clock.** -/
inductive LooksUp (s : Schedule) (z : Zone) (d : Direction) (origin : Instant) : Int → Prop where
  /-- The origin. -/
  | origin : LooksUp s z d origin origin.second
  /-- The minutes that it comes to from the minute next to that of the origin. -/
  | minute {w start : WallTime} {m : CivilMinute} (hw : z.read origin = .ok w)
      (hstart : w.startOfMinute.add? d.minute = some start)
      (hm : s.ComesTo z d origin maxAttempts start.civil m) : LooksUp s z d origin (m.number * 60)
  /-- The minute of the origin, once it has found an instant. -/
  | ownMinute {w start : WallTime} {found : Instant} (hw : z.read origin = .ok w)
      (hstart : w.startOfMinute.add? d.minute = some start)
      (hfound : s.firstPast z d origin maxAttempts start = .ok found) :
      LooksUp s z d origin w.startOfMinute.second
  /-- The minutes that it comes to when it sets out once more. -/
  | otherPass {w start restart : WallTime} {found : Instant} {m : CivilMinute}
      (hw : z.read origin = .ok w) (hstart : w.startOfMinute.add? d.minute = some start)
      (hfound : s.firstPast z d origin maxAttempts start = .ok found)
      (hrestart : z.otherPass? d origin w.startOfMinute = .ok (some restart))
      (hm : s.ComesTo z d origin maxAttempts restart.civil m) :
      LooksUp s z d origin (m.number * 60)

/-- **A search comes to no reading exactly if something it looks up lies off the calendar.** -/
theorem occurrence_eq_noReading (hv : s.Valid) (hz : z.Calm) :
    s.occurrence z d origin = .error .noReading ↔
      ∃ second, s.LooksUp z d origin second ∧ z.OffCalendar second := by
  have hfirst : ∀ {start : WallTime}, s.firstPast z d origin maxAttempts start = .error .noReading ↔
      ∃ m, s.ComesTo z d origin maxAttempts start.civil m ∧ z.OffCalendar (m.number * 60) :=
    firstPast_eq_noReading hv hz
  have hother : ∀ {w : WallTime}, z.otherPass? d origin w.startOfMinute = .error .noReading ↔
      z.OffCalendar w.startOfMinute.second :=
    hz.otherPass?_eq_noReading Stamp.not_isLeap_startOfMinute
  constructor
  · intro h
    rcases bind_eq_error.mp h with hread | ⟨w, hw, h⟩
    · exact ⟨_, .origin, Zone.read_eq_noReading.mp hread⟩
    rcases bind_eq_error.mp h with hadd | ⟨start, hadd, h⟩
    · cases hadd' : w.startOfMinute.add? d.minute <;> simp [hadd', orOutOfCalendar] at hadd
    rw [orOutOfCalendar_eq_ok] at hadd
    rcases bind_eq_error.mp h with hnone | ⟨found, hfound, h⟩
    · obtain ⟨m, hm, hoff⟩ := hfirst.mp hnone
      exact ⟨_, .minute hw hadd hm, hoff⟩
    rcases bind_eq_error.mp h with hnone | ⟨other, hrestart, h⟩
    · exact ⟨_, .ownMinute hw hadd hfound, hother.mp hnone⟩
    cases other with
    | none => cases h
    | some restart =>
      rcases bind_eq_error.mp h with hnone | ⟨again, -, h⟩
      · obtain ⟨m, hm, hoff⟩ := hfirst.mp hnone
        exact ⟨_, .otherPass hw hadd hfound hrestart hm, hoff⟩
      · cases h
  · rintro ⟨second, hlook, hoff⟩
    cases hlook with
    | origin => exact bind_eq_error.mpr (Or.inl (Zone.read_eq_noReading.mpr hoff))
    | minute hw hadd hm =>
      exact bind_eq_error.mpr (Or.inr ⟨_, hw, bind_eq_error.mpr (Or.inr ⟨_,
        orOutOfCalendar_eq_ok.mpr hadd, bind_eq_error.mpr (Or.inl (hfirst.mpr ⟨_, hm, hoff⟩))⟩)⟩)
    | ownMinute hw hadd hfound =>
      exact bind_eq_error.mpr (Or.inr ⟨_, hw, bind_eq_error.mpr (Or.inr ⟨_,
        orOutOfCalendar_eq_ok.mpr hadd, bind_eq_error.mpr (Or.inr ⟨_, hfound,
          bind_eq_error.mpr (Or.inl (hother.mpr hoff))⟩)⟩)⟩)
    | otherPass hw hadd hfound hrestart hm =>
      exact bind_eq_error.mpr (Or.inr ⟨_, hw, bind_eq_error.mpr (Or.inr ⟨_,
        orOutOfCalendar_eq_ok.mpr hadd, bind_eq_error.mpr (Or.inr ⟨_, hfound,
          bind_eq_error.mpr (Or.inr ⟨_, hrestart,
            bind_eq_error.mpr (Or.inl (hfirst.mpr ⟨_, hm, hoff⟩))⟩)⟩)⟩)⟩)

theorem isDue_eq_noReading : s.isDue z t = .error .noReading ↔ z.OffCalendar t.second := by
  rw [← Zone.read_eq_noReading]
  unfold isDue
  rw [bind_eq_error]
  constructor
  · rintro (h | ⟨w, -, h⟩)
    · exact h
    · cases h
  · exact Or.inl

/-- Runs that have not ended report a search that comes to no reading, and no other. -/
theorem next_eq_noReading {runs : Runs} : runs.next.1 = .error .noReading ↔
    runs.ended = false ∧
      runs.schedule.occurrence runs.zone runs.direction runs.current = .error .noReading := by
  unfold Runs.next
  cases runs.ended with
  | true => simp
  | false =>
    simp only [Bool.false_eq_true, if_false, true_and]
    split <;> simp_all

/-- **Where a lookup comes to no reading.**  On a clock that is not changed near the ends of the
calendar a minute is told, a time is looked up and a run is taken without a failure of reading,
unless a second that is looked up for it lies off the calendar; such a second lies within a day of
the ends. -/
theorem noReading_iff {expression : String} (hs : parse expression = .ok s) (hz : z.Calm) :
    (∀ second, z.OffCalendar second →
      second < firstSecond + 86400 ∨ lastSecond - 86400 < second) ∧
    (∀ t, (z.read t = .error .noReading ↔ z.OffCalendar t.second) ∧
      (s.isDue z t = .error .noReading ↔ z.OffCalendar t.second)) ∧
    (∀ w : WallTime,
      (z.showing w = .error .noReading ↔
        z.OffCalendar w.second ∨ w.IsLeap ∧ z.HourLaterOff w) ∧
      (z.firstShowing w = .error .noReading ↔
        z.OffCalendar w.second ∨ w.IsLeap ∧ z.HourLaterOff w)) ∧
    (∀ d origin, s.occurrence z d origin = .error .noReading ↔
      ∃ second, s.LooksUp z d origin second ∧ z.OffCalendar second) ∧
    ∀ runs : Runs, runs.schedule = s → runs.zone = z → (runs.next.1 = .error .noReading ↔
      runs.ended = false ∧
        ∃ second, s.LooksUp z runs.direction runs.current second ∧ z.OffCalendar second) := by
  have hv := valid_of_parse hs
  refine ⟨fun _ h => h.near_end hz.within, fun t => ⟨Zone.read_eq_noReading, isDue_eq_noReading⟩,
    fun w => ⟨hz.showing_eq_noReading_iff,
      Zone.firstShowing_eq_noReading.trans hz.showing_eq_noReading_iff⟩,
    fun d origin => occurrence_eq_noReading hv hz, ?_⟩
  rintro runs rfl rfl
  rw [next_eq_noReading, occurrence_eq_noReading hv hz]

/-- Half an hour before the last midnight on the clocks of Tokyo a search backward finds the one
before.  It comes to no reading all the same, when it looks up its own minute. -/
theorem noReading_iff_lastDay : ∃ s, parse "0 0 * * *" = .ok s ∧ Zone.tokyo.Calm ∧
    ∃ origin : Instant, origin.second = lastSecond - 34199 ∧
      s.isDue Zone.tokyo origin = .ok false ∧ s.previous Zone.tokyo origin = .error .noReading ∧
      ∃ second, s.LooksUp Zone.tokyo .backward origin second ∧ Zone.tokyo.OffCalendar second := by
  let origin : Instant := ⟨lastSecond - 34199, 0, by decide, by decide, by decide⟩
  obtain ⟨s, hs, hdue, hprev⟩ := exists_of_parse "0 0 * * *" (fun s =>
    s.isDue Zone.tokyo origin = .ok false ∧ s.previous Zone.tokyo origin = .error .noReading)
    (by decide)
  have hcalm : Zone.tokyo.Calm :=
    Zone.calm_of_transitions (by decide) (by decide +kernel)
  obtain ⟨-, -, -, hsearch, -⟩ := noReading_iff hs hcalm
  exact ⟨s, hs, hcalm, origin, rfl, hdue, hprev, (hsearch .backward origin).mp hprev⟩

/-- In the last hour of universal time the clocks of Tokyo would show a year that is not in use,
so no expression can be told to be due. -/
theorem isDueAt_lastHour : ∃ t : Instant, t.second = lastSecond - 3599 ∧
    isDueAt "* * * * *" { zone? := some "Asia/Tokyo" } t = .error (.search .noReading) :=
  ⟨⟨lastSecond - 3599, 0, by decide, by decide, by decide⟩, rfl, by decide⟩

end Schedule

end Crontab
