import Crontab.Proofs.Finding
import Crontab.Proofs.Rewind

/-! # When a search for an occurrence gives up

The wall clock may show the nearest admitted minutes only at instants on the wrong side of
the origin, as it does for a search backward from the end of a gap: the times in the gap
stand for instants after it.  A search then goes on to the next minute, but not for long, so
**a search finds an occurrence exactly when one of the nearest admitted minutes of every
start has an instant past the origin** (`Schedule.occurrence_outcome`), and gives up
otherwise, however many occurrences lie beyond.

The starts are the minute next to the one that the clock shows, and in a fold the time from
which the search sets out once more (`Zone.SetsOut`).
-/

namespace Crontab

open Outcome

namespace Zone

variable {z : Zone} {d : Direction} {origin : Instant}

/-- A wall time from which the search for an occurrence past `origin` sets out. -/
def SetsOut (z : Zone) (d : Direction) (origin : Instant) (start : WallTime) : Prop :=
  ∃ shown, z.read origin = .ok shown ∧
    (shown.startOfMinute.add? d.minute = some start ∨
      z.otherPass? d origin shown.startOfMinute = .ok (some start))

/-- Away from the ends of the calendar a search learns whether it has to set out once more,
and if so from where: a time no more than three days away. -/
theorem exists_otherPass (hz : z.WithinDay) (d : Direction) (origin : Instant) {shown : WallTime}
    (hin : shown.Inside 96) (hleap : ¬ shown.IsLeap) :
    ∃ o, z.otherPass? d origin shown = .ok o ∧
      ∀ t, o = some t → (t.second - shown.second).natAbs ≤ 3 * 86400 := by
  obtain ⟨hf, hl⟩ := hin
  unfold otherPass?
  have hin : shown.Inside 50 := ⟨by omega, by omega⟩
  rcases showing_spec hz hin hleap with
    ⟨-, ts, hts, hshow, -⟩ | ⟨t, ht, -⟩
  · rw [hts]
    match ts, hshow with
    | [], _ => exact ⟨none, rfl, by simp⟩
    | [_], _ => exact ⟨none, rfl, by simp⟩
    | _ :: _ :: _ :: _, _ => exact ⟨none, rfl, by simp⟩
    | [low, high], hshow =>
      obtain ⟨hlow, hls⟩ := nearby_of_read hz (hshow.shows low (by simp))
      obtain ⟨hhigh, hhs⟩ := nearby_of_read hz (hshow.shows high (by simp))
      have hlt : low < high := by simpa using hshow.ascending
      obtain ⟨turn, hturn, hleap', hbetween, -⟩ := rewind_spec hz
        (Stamp.not_isLeap_of_nano hleap hlow) (Stamp.not_isLeap_of_nano hleap hhigh)
        ⟨by omega, by omega⟩ ⟨by omega, by omega⟩ hlt
      -- whatever instant the search sets out from, the clock can be read there
      have hread : ∀ t : Instant, (t.second - turn.second).natAbs ≤ 60 → ∃ w, z.read t = .ok w ∧
          (w.second - shown.second).natAbs ≤ 3 * 86400 := by
        intro t ht
        obtain ⟨w, hw⟩ := exists_read hz (t := t) ⟨by omega, by omega⟩
        have := (read_eq_ok.mp hw).1
        have := hz t.second
        exact ⟨w, hw, by omega⟩
      cases d with
      | forward =>
        by_cases hpass : origin < high
        · obtain ⟨w, hw, hnear⟩ := hread turn (by omega)
          refine ⟨some w, ?_, by rintro _ ⟨⟩; exact hnear⟩
          simp [hturn, hpass, hw, bind, Except.bind, pure, Except.pure]
        · refine ⟨none, ?_, by simp⟩
          simp [hturn, hpass, bind, Except.bind, pure, Except.pure]
      | backward =>
        by_cases hpass : origin < high
        · refine ⟨none, ?_, by simp⟩
          simp [hturn, hpass, bind, Except.bind, pure, Except.pure]
        · have hf' : firstSecond ≤ turn.second + -1 * 60 := by omega
          have hl' : turn.second + -1 * 60 ≤ lastSecond := by omega
          obtain ⟨before, -, hbs, hbn⟩ := Stamp.exists_of? .utc hf' hl' turn.nano_lt
          have hadd : turn.add? (Duration.minutes (-1)) = some before :=
            (Stamp.add?_seconds_eq_some hleap').mpr ⟨hbs, hbn⟩
          obtain ⟨w, hw, hnear⟩ := hread before (by omega)
          refine ⟨some w, ?_, by rintro _ ⟨⟩; exact hnear⟩
          simp [hturn, hpass, hadd, hw, bind, Except.bind, pure, Except.pure]
  · rw [ht]
    exact ⟨none, rfl, by simp⟩

end Zone

namespace Schedule

variable {s : Schedule} {z : Zone} {d : Direction} {origin : Instant} {start : WallTime}

/-- **An occurrence is within reach**: one of the admitted minutes that a search comes to
first has an instant past the origin. -/
def WithinReach (s : Schedule) (z : Zone) (d : Direction) (origin : Instant)
    (start : WallTime) : Prop :=
  ∃ m, s.AmongNearest d maxAttempts start.civil m ∧
    ∃ w ts t, m.toWall? = some w ∧ z.showing w = .ok ts ∧ t ∈ ts ∧ d.Past origin t

theorem firstPast_withinReach (hv : s.Valid) (hz : z.WithinDay) (d : Direction)
    (origin : Instant) (hin : start.Inside 237720) :
    (∃ r, s.firstPast z d origin maxAttempts start = .ok r ∧ d.Past origin r) ∧
      s.WithinReach z d origin start ∨
    s.firstPast z d origin maxAttempts start = .error .stepsExhausted ∧
      ¬ s.WithinReach z d origin start := by
  rcases firstPast_outcome hv hz d origin maxAttempts hin with
    ⟨r, m, hr, hm, w, ts, hw, hts, hpick⟩ | ⟨herr, hnone⟩
  · obtain ⟨hmem, hpast⟩ := Direction.pick_eq_some hpick
    exact Or.inl ⟨⟨r, hr, hpast⟩, m, hm, w, ts, r, hw, hts, hmem, hpast⟩
  · refine Or.inr ⟨herr, ?_⟩
    rintro ⟨m, hm, w, ts, t, hw, hts, hmem, hpast⟩
    obtain ⟨w', ts', hw', hts', hpick⟩ := hnone m hm
    obtain rfl : w = w' := Option.some.inj (hw.symm.trans hw')
    obtain rfl : ts = ts' := Except.ok.inj (hts.symm.trans hts')
    exact Direction.pick_eq_none_iff.mp hpick t hmem hpast

/-- **A search finds an occurrence exactly when one is within reach of every start.** -/
theorem occurrence_outcome (hv : s.Valid) (hz : z.WithinDay) (d : Direction)
    (hin : origin.Inside 240000) :
    ((∃ r, s.occurrence z d origin = .ok r ∧ d.Past origin r) ∧
      ∀ start, z.SetsOut d origin start → s.WithinReach z d origin start) ∨
    s.occurrence z d origin = .error .stepsExhausted ∧
      ∃ start, z.SetsOut d origin start ∧ ¬ s.WithinReach z d origin start := by
  obtain ⟨hf, hl⟩ := hin
  obtain ⟨shown, hshown⟩ := Zone.exists_read hz (t := origin) ⟨by omega, by omega⟩
  have hss := (Zone.read_eq_ok.mp hshown).1
  have ho := hz origin.second
  have hsign : d.sign.natAbs = 1 := by cases d <;> rfl
  have hleap : ¬ shown.startOfMinute.IsLeap := Stamp.not_isLeap_startOfMinute
  have hfirst : shown.startOfMinute.second = shown.second - shown.second % 60 := rfl
  have hf' : firstSecond ≤ shown.startOfMinute.second + d.sign * 60 := by omega
  have hl' : shown.startOfMinute.second + d.sign * 60 ≤ lastSecond := by omega
  obtain ⟨start, -, hs, hn⟩ := Stamp.exists_of? .wall hf' hl' shown.startOfMinute.nano_lt
  have hstart : shown.startOfMinute.add? d.minute = some start :=
    (Stamp.add?_seconds_eq_some hleap).mpr ⟨hs, hn⟩
  have hshin : shown.startOfMinute.Inside 96 := ⟨by omega, by omega⟩
  obtain ⟨other, hother, hfar⟩ :=
    Zone.exists_otherPass hz d origin hshin hleap
  have hsets : ∀ t, z.SetsOut d origin t ↔ t = start ∨ other = some t := by
    intro t
    unfold Zone.SetsOut
    simp [hshown, hstart, hother, eq_comm]
  have hin' : start.Inside 237720 := ⟨by omega, by omega⟩
  rcases firstPast_withinReach hv hz d origin hin' with
    ⟨⟨r, hr, hpast⟩, hreach⟩ | ⟨herr, hreach⟩
  · cases other with
    | none =>
      refine Or.inl ⟨⟨r, ?_, hpast⟩, fun t ht => ?_⟩
      · exact occurrence_eq_ok_iff.mpr
          ⟨shown, start, r, hshown, hstart, hr, Or.inl ⟨hother, rfl⟩⟩
      · rcases (hsets t).mp ht with rfl | he
        · exact hreach
        · cases he
    | some restart =>
      have := hfar restart rfl
      have hin'' : restart.Inside 237720 := ⟨by omega, by omega⟩
      rcases firstPast_withinReach hv hz d origin hin'' with
        ⟨⟨r', hr', hpast'⟩, hreach'⟩ | ⟨herr', hreach'⟩
      · refine Or.inl ⟨⟨d.nearer r r', ?_, ?_⟩, fun t ht => ?_⟩
        · exact occurrence_eq_ok_iff.mpr ⟨shown, start, r, hshown, hstart, hr,
            Or.inr ⟨restart, r', hother, hr', rfl⟩⟩
        · rcases Direction.nearer_eq d r r' with he | he
          · rw [he]
            exact hpast
          · rw [he]
            exact hpast'
        · rcases (hsets t).mp ht with rfl | he
          · exact hreach
          · cases he
            exact hreach'
      · refine Or.inr ⟨?_, restart, (hsets restart).mpr (Or.inr rfl), hreach'⟩
        exact bind_eq_error.mpr (Or.inr ⟨shown, hshown, bind_eq_error.mpr (Or.inr ⟨start,
          orOutOfCalendar_eq_ok.mpr hstart, bind_eq_error.mpr (Or.inr ⟨r, hr, bind_eq_error.mpr
            (Or.inr ⟨some restart, hother, bind_eq_error.mpr (Or.inl herr')⟩)⟩)⟩)⟩)
  · refine Or.inr ⟨?_, start, (hsets start).mpr (Or.inl rfl), hreach⟩
    exact bind_eq_error.mpr (Or.inr ⟨shown, hshown, bind_eq_error.mpr (Or.inr ⟨start,
      orOutOfCalendar_eq_ok.mpr hstart, bind_eq_error.mpr (Or.inl herr)⟩)⟩)

end Schedule

end Crontab
