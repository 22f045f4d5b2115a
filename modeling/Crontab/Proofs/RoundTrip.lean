import Crontab.Proofs.LeapSecond
import Crontab.Proofs.SteadyClock
import Crontab.Zone.Table

/-! # From the wall clock back to universal time

The clock of a zone takes an instant to the time that it shows.  `Zone.showing` goes the other
way, by guessing and by looking half a day to either side.  In a regular zone **it takes a time
that is shown, but for leap seconds, back to exactly the instants that show it**
(`Zone.Regular.showing_cases`): to one, or in a fold to the one before the turn and the one from the
turn on.  Two instants that show one time lie on either side of a turn that puts the clock back, so
a time outside the folds has one instant only (`Zone.Spaced.eq_of_read`).

A leap second is taken back only where the clock shows universal time
(`Zone.showing_roundTrip`).  On other clocks no instant that shows it is found, though there is one
(`Zone.showing_misses_leapSecond`).
-/

namespace Crontab.Zone

open Outcome

variable {z : Zone} {w : WallTime} {t u : Instant}

/-- **Outside the folds a time is shown once.** -/
theorem Spaced.eq_of_read (hz : z.Spaced) (hfold : ∀ turn, ¬ z.ShowsTwice turn w.second)
    (ht : z.read t = .ok w) (hu : z.read u = .ok w) : t = u := by
  obtain ⟨hts, htn⟩ := read_eq_ok.mp ht
  obtain ⟨hus, hun⟩ := read_eq_ok.mp hu
  refine Stamp.eq_of_figures ?_ (htn.symm.trans hun)
  rcases Int.lt_trichotomy t.second u.second with hlt | heq | hlt
  · obtain ⟨turn, -, htwice⟩ := hz.exists_showsTwice hlt (by omega) (Int.le_of_eq hts)
    exact absurd htwice (hfold turn)
  · exact heq
  · obtain ⟨turn, -, htwice⟩ := hz.exists_showsTwice hlt (by omega) (Int.le_of_eq hus)
    exact absurd htwice (hfold turn)

/-- The first of the instants that show a time is the first of the list. -/
theorem firstShowing_of_showing {ts : List Instant} (h : z.showing w = .ok (t :: ts)) :
    z.firstShowing w = .ok t :=
  bind_eq_ok.mpr ⟨t :: ts, h, rfl⟩

/-- **Outside leap seconds the way back from the wall clock is exact.** -/
theorem Regular.showing_cases (hz : z.Regular) (hin : w.Inside 50) (hleap : ¬ w.IsLeap)
    (hu : z.read u = .ok w) :
    ∃ ts, z.showing w = .ok ts ∧ ts.Pairwise (· < ·) ∧ (∀ t, t ∈ ts ↔ z.read t = .ok w) ∧
      ((∀ turn, ¬ z.ShowsTwice turn w.second) ∧ ts = [u] ∧ z.firstShowing w = .ok u ∨
        ∃ turn earlier later, z.ShowsTwice turn w.second ∧
          (earlier.second < turn ∧ turn ≤ later.second) ∧ ts = [earlier, later] ∧
          (u = earlier ∨ u = later) ∧ z.firstShowing w = .ok earlier) := by
  obtain ⟨ts, hts, hasc, hmem⟩ := hz.showing_of_shown hin hleap hu
  refine ⟨ts, hts, hasc, hmem, ?_⟩
  by_cases hfold : ∃ turn, z.ShowsTwice turn w.second
  · obtain ⟨turn, htwice⟩ := hfold
    obtain ⟨earlier, later, hpair, -, -, hearlier, hlater⟩ :=
      hz.showing_of_showsTwice hin hleap htwice
    obtain rfl : ts = [earlier, later] := Except.ok.inj (hts.symm.trans hpair)
    have hbefore := htwice.before
    have hafter := htwice.after
    exact Or.inr ⟨turn, earlier, later, htwice, ⟨by omega, by omega⟩, rfl,
      by simpa using (hmem u).mpr hu, firstShowing_of_showing hts⟩
  · have hnot : ∀ turn, ¬ z.ShowsTwice turn w.second := fun turn h => hfold ⟨turn, h⟩
    have hone : ∀ t, t ∈ ts ↔ t = u := by
      intro t
      rw [hmem]
      exact ⟨fun ht => hz.eq_of_read hnot ht hu, fun he => he ▸ hu⟩
    obtain rfl : ts = [u] := Stamp.eq_singleton hasc hone
    exact Or.inl ⟨hnot, rfl, firstShowing_of_showing hts⟩

/-- **The way back from the wall clock is exact, but for leap seconds.**  A time that the clock shows,
in whatever fraction of a second, is taken to the ascending list of all instants that show it.
Outside the folds that is the one instant.  In a fold there are two, and the first of them comes
before the turn and is the one that the time alone is taken to.

A leap second is taken to a single instant.  This is the instant that shows it if the offset in
force there is zero, and another one if it is not. -/
theorem showing_roundTrip (hz : z.Regular) (hin : w.Inside 96) (hu : z.read u = .ok w) :
    (¬ w.IsLeap → ∃ ts, z.showing w = .ok ts ∧ ts.Pairwise (· < ·) ∧
      (∀ t, t ∈ ts ↔ z.read t = .ok w) ∧
      ((∀ turn, ¬ z.ShowsTwice turn w.second) ∧ ts = [u] ∧ z.firstShowing w = .ok u ∨
        ∃ turn earlier later, z.ShowsTwice turn w.second ∧
          (earlier.second < turn ∧ turn ≤ later.second) ∧ ts = [earlier, later] ∧
          (u = earlier ∨ u = later) ∧ z.firstShowing w = .ok earlier)) ∧
    (w.IsLeap → ∃ t, z.showing w = .ok [t] ∧ z.firstShowing w = .ok t ∧
      (t = u ↔ z.offsetAt u.second = 0)) := by
  have hin50 : w.Inside 50 := hin.mono (by decide)
  refine ⟨fun hleap => hz.showing_cases hin50 hleap hu, fun hleap => ?_⟩
  obtain ⟨t, ht, hiff⟩ := showing_leap_iff hz.within hin50 hleap hu
  exact ⟨t, ht, firstShowing_of_showing ht, hiff⟩

/-- On 1 November 2026 the clocks are put back from two to one.  Half a second past half past one
in the second pass is taken back to both passes, and alone to the first. -/
theorem showing_roundTrip_fold : ∃ (w : WallTime) (first second : Instant),
    (first.second = 1793511000 ∧ first.nano = 500000000 ∧ second.second = 1793514600) ∧
      eastern.read second = .ok w ∧ eastern.showing w = .ok [first, second] ∧
      eastern.firstShowing w = .ok first := by
  have hread : eastern.read ⟨1793514600, 500000000, by decide, by decide, by decide⟩ =
      .ok ⟨1793496600, 500000000, by decide, by decide, by decide⟩ := by decide +kernel
  have hshow : eastern.showing ⟨1793496600, 500000000, by decide, by decide, by decide⟩ =
      .ok [⟨1793511000, 500000000, by decide, by decide, by decide⟩,
        ⟨1793514600, 500000000, by decide, by decide, by decide⟩] := by decide +kernel
  have htwice : eastern.ShowsTwice 1793512800 1793496600 :=
    ⟨show eastern.offsetAt _ ≠ eastern.offsetAt _ by decide, by decide, by decide⟩
  obtain ⟨ts, hts, -, -, ⟨hnot, -⟩ | ⟨_, first, second, -, -, rfl, -, hfirst⟩⟩ :=
    (showing_roundTrip wholeMinutes_eastern.toRegular ⟨by decide, by decide⟩ hread).1 (by decide)
  · exact absurd htwice (hnot _)
  · cases hshow.symm.trans hts
    exact ⟨_, _, _, ⟨rfl, rfl, rfl⟩, hread, hshow, hfirst⟩

/-- **Half a second into the leap second at the end of 2016**, the clocks of Tokyo show the leap
second before nine in the morning.  That time is taken to an instant in the second after, which
shows another time. -/
theorem showing_misses_leapSecond : ∃ (u x : Instant) (w : WallTime), tokyo.Regular ∧
    (u.second = 1483228799 ∧ u.nano = 1500000000) ∧ tokyo.read u = .ok w ∧
      tokyo.showing w = .ok [x] ∧ (x.second = 1483232399 ∧ x.nano = 500000000) ∧
      tokyo.read x ≠ .ok w :=
  ⟨⟨1483228799, 1500000000, by decide, by decide, by decide⟩,
    ⟨1483232399, 500000000, by decide, by decide, by decide⟩,
    ⟨1483261199, 1500000000, by decide, by decide, by decide⟩,
    regular_of_transitions 32400 (by decide) (by decide), ⟨rfl, rfl⟩, by decide +kernel,
    by decide +kernel, ⟨rfl, rfl⟩, by decide +kernel⟩

end Crontab.Zone
