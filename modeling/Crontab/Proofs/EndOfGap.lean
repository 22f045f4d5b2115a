import Crontab.Proofs.Begins
import Crontab.Proofs.OtherPass
import Crontab.Proofs.Retries
import Crontab.Zone.Table

/-! # When a search backward gives up

A search backward gives up when it has come to `maxAttempts` admitted minutes without an
instant before the origin (`Schedule.previous_iff`).  In a regular zone a minute before that of
the origin begins before the origin if it begins at all
(`Zone.Spaced.exists_begins_passes`), and setting out once more never fails
(`Schedule.withinReach_of_restart`).  So there **a search backward gives up exactly when the
clock passes over all of the nearest admitted minutes and the instants that stand in for them
come too late**: the origin lies soon after the end of a gap.
-/

namespace Crontab

open Outcome

namespace Zone

variable {z : Zone} {d : Direction} {u origin : Instant} {m : CivilMinute} {second : Int}

/-- **A minute that begins begins on the far side of any second**, if it lies past what the clock
shows there. -/
theorem Spaced.exists_begins_passes (hz : z.Spaced)
    (hf : firstSecond + 180000 ≤ m.number * 60) (hl : m.number * 60 ≤ lastSecond - 180000)
    (hu : z.Begins u m) (h : d.Passes (second + z.offsetAt second) (m.number * 60)) :
    ∃ t, z.Begins t m ∧ d.Passes second t.second := by
  by_cases hpass : d.Passes second u.second
  · exact ⟨u, hu, hpass⟩
  have hw := hz.within
  have := hw second
  have := hw u.second
  obtain ⟨-, hus⟩ := hu
  obtain ⟨turn, before, after, hv⟩ := hz.exists_view (m.number * 60)
  have hbounds := hv.bounds hw
  -- the clock is put back between the second and the instant, and the minute begins in the
  -- other pass too
  cases d with
  | forward =>
    simp only [Direction.Passes] at *
    have hside : turn ≤ second ∧ z.offsetAt second = after := by
      rcases hv.offset second (by omega) with h1 | h1 <;>
        rcases hv.offset u.second (by omega) with h2 | h2 <;> omega
    obtain ⟨t, hts, ht⟩ := exists_begins (z := z) (m := m)
      (show firstSecond ≤ m.number * 60 - after by omega) (by omega)
      (by rcases hv.offset (m.number * 60 - after) (by omega) with h1 | h1 <;> omega)
    exact ⟨t, ht, by omega⟩
  | backward =>
    simp only [Direction.Passes] at *
    have hside : second < turn ∧ z.offsetAt second = before := by
      rcases hv.offset second (by omega) with h1 | h1 <;>
        rcases hv.offset u.second (by omega) with h2 | h2 <;> omega
    obtain ⟨t, hts, ht⟩ := exists_begins (z := z) (m := m)
      (show firstSecond ≤ m.number * 60 - before by omega) (by omega)
      (by rcases hv.offset (m.number * 60 - before) (by omega) with h1 | h1 <;> omega)
    exact ⟨t, ht, by omega⟩

/-- The clock passes over the minute, and the instant that stands in for it does not come
before the origin. -/
def OutOfReach (z : Zone) (origin : Instant) (m : CivilMinute) : Prop :=
  (∃ turn, z.PassesOver turn m) ∧
    ∃ w t, m.toWall? = some w ∧ z.showing w = .ok [t] ∧ ¬ t < origin

end Zone

namespace Schedule

variable {s : Schedule} {z : Zone} {d : Direction} {origin u : Instant} {m : CivilMinute}
  {start restart w : WallTime} {second : Int}

/-- One of the nearest minutes that begins is within reach, if it lies past what the clock shows
at the origin or at a second beyond it. -/
theorem withinReach_of_begins (hz : z.Regular) (hm : s.AmongNearest d maxAttempts start.civil m)
    (hf : firstSecond + 180000 ≤ m.number * 60) (hl : m.number * 60 ≤ lastSecond - 180000)
    (hu : z.Begins u m) (hle : d.Reaches origin.second second)
    (h : d.Passes (second + z.offsetAt second) (m.number * 60)) :
    s.WithinReach z d origin start := by
  obtain ⟨t, ht, hpass⟩ := hz.exists_begins_passes hf hl hu h
  have hpast : d.Past origin t := by
    cases d <;> simp only [Direction.Past, Direction.Passes, Direction.Reaches, Stamp.lt_def] at * <;>
      omega
  obtain ⟨w, hw, -⟩ := CivilMinute.exists_toWall? hm.1.inUse
  obtain ⟨ts, hts, -, hmem⟩ := hz.showing_of_begins hm.1.inUse hf hl hw ht
  exact ⟨m, hm, w, ts, t, hw, hts, (hmem t).mpr ht, hpast⟩

/-- **Setting out once more, a search backward always finds an occurrence**: there is no gap
soon before a fold. -/
theorem withinReach_of_restart (hv : s.Valid) (hz : z.Regular) (hin : origin.Inside 240000)
    (hw : z.read origin = .ok w)
    (h : z.otherPass? .backward origin w.startOfMinute = .ok (some restart)) :
    s.WithinReach z .backward origin restart := by
  have hwithin := hz.within
  have hws := (Zone.read_eq_ok.mp hw).1
  have ho := hwithin origin.second
  have hshown : w.startOfMinute.second = w.second - w.second % 60 := rfl
  obtain ⟨hf, hl⟩ := hin
  obtain ⟨turn, hc, hbehind, hfold, hrs⟩ :=
    hz.turn_of_otherPass?_backward ⟨by omega, by omega⟩ hw h
  have hin' : w.startOfMinute.Inside 96 := ⟨by omega, by omega⟩
  obtain ⟨other, hother, hfar⟩ :=
    Zone.exists_otherPass hwithin .backward origin hin' Stamp.not_isLeap_startOfMinute
  have hnear := hfar restart (Except.ok.inj (hother.symm.trans h))
  have hin2 : restart.Inside (79200 * (2 : Nat) + 79320) := ⟨by omega, by omega⟩
  obtain ⟨c, _, _, -, hcnear, -, -, -, -, hcfar, -⟩ := exists_nearest hv .backward hin2
  have hcuse := hcnear.candidate.inUse
  have hle := (CivilMinute.reaches_number_iff restart.civil_inUse.exists hcuse.exists).mpr
    hcnear.candidate.ahead
  simp only [Direction.Reaches, Stamp.number_civil] at hle
  have hamong : s.AmongNearest .backward maxAttempts restart.civil c := hcnear.amongNearest
  by_cases hbegins : ∃ u, z.Begins u c
  · obtain ⟨u, hu⟩ := hbegins
    exact withinReach_of_begins hz hamong (by omega) (by omega) hu
      (show turn - 1 ≤ origin.second by omega) (show _ < _ by omega)
  · obtain ⟨turn', hpasses, hclose, wall, t, hwall, ht⟩ := hz.passesOver hcuse (by omega) (by omega)
      fun u hu => hbegins ⟨u, hu⟩
    obtain ⟨hs, hn, -⟩ := CivilMinute.figures_of_toWall? hwall
    obtain ⟨-, htnear⟩ := Zone.showing_nearby hwithin (Stamp.not_isLeap_of_nano_eq_zero hn) ht
      List.mem_cons_self
    refine ⟨c, hamong, wall, [t], t, hwall, ht, List.mem_cons_self, Stamp.lt_def.mpr ?_⟩
    -- the clock is put forward past the minute long before it is put back
    have hc' := hpasses.changes
    unfold Zone.PassesOver at hpasses
    rcases Int.lt_trichotomy turn turn' with hlt | rfl | hlt
    · have := hz.apart turn turn' hc hc' hlt
      have := hwithin (turn - 1)
      omega
    · omega
    · have := hz.apart turn' turn hc' hc hlt
      omega

/-- **In a regular zone no occurrence is within reach** exactly when the nearest admitted
minutes are all out of reach. -/
theorem not_withinReach_iff (hz : z.Regular) (hv : s.Valid) (hin : origin.Inside 240000)
    (hw : z.read origin = .ok w)
    (hstart : w.startOfMinute.add? Direction.backward.minute = some start) :
    ¬ s.WithinReach z .backward origin start ↔
      ∀ m, s.AmongNearest .backward maxAttempts start.civil m → z.OutOfReach origin m := by
  have hws := (Zone.read_eq_ok.mp hw).1
  have ho := hz.within origin.second
  have hshown : w.startOfMinute.second = w.second - w.second % 60 := rfl
  have hss := ((Stamp.add?_seconds_eq_some Stamp.not_isLeap_startOfMinute).mp hstart).1
  have hsign : Direction.backward.sign = -1 := rfl
  obtain ⟨hf, hl⟩ := hin
  constructor
  · intro hnot m hm
    have huse := hm.1.inUse
    have hnear := hm.near hv (by rw [maxAttempts]; exact ⟨by omega, by omega⟩)
    have hle := (CivilMinute.reaches_number_iff start.civil_inUse.exists huse.exists).mpr
      hm.1.ahead
    simp only [Direction.Reaches, Stamp.number_civil] at hle
    rw [maxAttempts] at hnear
    obtain ⟨turn, hpasses, -, wall, t, hwall, ht⟩ := hz.passesOver huse (by omega) (by omega)
      fun u hu => hnot (withinReach_of_begins hz hm (by omega) (by omega) hu
        (Direction.reaches_refl _ _) (show _ < _ by omega))
    exact ⟨⟨turn, hpasses⟩, wall, t, hwall, ht,
      fun hlt => hnot ⟨m, hm, wall, [t], t, hwall, ht, List.mem_cons_self, hlt⟩⟩
  · rintro hall ⟨m, hm, wall, ts, t, hwall, hts, hmem, hpast⟩
    obtain ⟨-, wall', t', hwall', ht', hnot⟩ := hall m hm
    obtain rfl : wall = wall' := Option.some.inj (hwall.symm.trans hwall')
    obtain rfl : ts = [t'] := Except.ok.inj (hts.symm.trans ht')
    rw [List.mem_singleton.mp hmem] at hpast
    exact hnot hpast

/-- **When a search backward finds an occurrence.**  It finds one before the origin exactly
when one is within reach of every start, and gives up exactly when one of the starts has none
within reach.  In a regular zone that is when the clock passes over all of the nearest
admitted minutes, and the instants that stand in for them do not come before the origin. -/
theorem previous_iff {expression : String} (hs : parse expression = .ok s) (hz : z.WithinDay)
    (hin : origin.Inside 240000) :
    ((∃ r, s.previous z origin = .ok r ∧ r < origin) ↔
      ∀ start, z.SetsOut .backward origin start → s.WithinReach z .backward origin start) ∧
    (s.previous z origin = .error .stepsExhausted ↔
      ∃ start, z.SetsOut .backward origin start ∧ ¬ s.WithinReach z .backward origin start) ∧
    (z.Regular → ∀ w start, z.read origin = .ok w →
      w.startOfMinute.add? Direction.backward.minute = some start →
      (s.previous z origin = .error .stepsExhausted ↔
        ∀ m, s.AmongNearest .backward maxAttempts start.civil m → z.OutOfReach origin m)) := by
  have hv := valid_of_parse hs
  have hfails : s.previous z origin = .error .stepsExhausted ↔
      ∃ start, z.SetsOut .backward origin start ∧ ¬ s.WithinReach z .backward origin start := by
    rcases occurrence_outcome hv hz .backward hin with ⟨⟨r, hr, -⟩, hreach⟩ | ⟨herr, hnot⟩
    · refine ⟨fun herr => ?_, fun ⟨start, hstart, hnot⟩ => absurd (hreach start hstart) hnot⟩
      rw [previous, hr] at herr
      cases herr
    · exact ⟨fun _ => hnot, fun _ => herr⟩
  refine ⟨?_, hfails, fun hreg w start hw hstart => ?_⟩
  · rcases occurrence_outcome hv hz .backward hin with
      ⟨hfound, hreach⟩ | ⟨herr, start, hstart, hnot⟩
    · exact ⟨fun _ => hreach, fun _ => hfound⟩
    · refine ⟨?_, fun hreach => absurd (hreach start hstart) hnot⟩
      rintro ⟨r, hr, -⟩
      rw [previous, herr] at hr
      cases hr
  · rw [hfails, ← not_withinReach_iff hreg hv hin hw hstart]
    constructor
    · rintro ⟨start', ⟨w', hw', hfrom⟩, hnot⟩
      obtain rfl : w = w' := Except.ok.inj (hw.symm.trans hw')
      rcases hfrom with hadd | hother
      · rw [Option.some.inj (hstart.symm.trans hadd)]
        exact hnot
      · exact absurd (withinReach_of_restart hv hreg hin hw hother) hnot
    · intro hnot
      exact ⟨start, ⟨w, hw, Or.inl hstart⟩, hnot⟩

theorem regular_newYork : Zone.newYork.Regular :=
  Zone.regular_of_transitions (-18000) (by decide +kernel) (by decide +kernel)

/-- At three in the morning on 8 March 2026 the clocks of New York have just been put forward
from two.  The three minutes before three stand for instants an hour on, so the search
gives up, although a minute ago an occurrence was due. -/
theorem previous_endOfGap : ∃ s, parse "* * * * *" = .ok s ∧ ∃ origin t : Instant,
    (origin.second = 1772953200 ∧ origin.nano = 0 ∧ t.second = origin.second - 60) ∧
      s.isDue Zone.newYork t = .ok true ∧
      s.previous Zone.newYork origin = .error .stepsExhausted := by
  obtain ⟨s, hs, hdue, hprev⟩ := exists_of_parse "* * * * *" (fun s =>
      s.isDue Zone.newYork ⟨1772953140, 0, by decide, by decide, by decide⟩ = .ok true ∧
      s.previous Zone.newYork ⟨1772953200, 0, by decide, by decide, by decide⟩ =
        .error .stepsExhausted) (by decide +kernel)
  exact ⟨s, hs, _, _, ⟨rfl, rfl, rfl⟩, hdue, hprev⟩

/-- At the end of the gap the nearest admitted minutes are out of reach. -/
theorem previous_iff_endOfGap : ∃ s, parse "* * * * *" = .ok s ∧
    ∃ origin : Instant, origin.second = 1772953200 ∧
      (∃ start, Zone.newYork.SetsOut .backward origin start ∧
        ¬ s.WithinReach Zone.newYork .backward origin start) ∧
      ∀ w start, Zone.newYork.read origin = .ok w →
        w.startOfMinute.add? Direction.backward.minute = some start →
        ∀ m, s.AmongNearest .backward maxAttempts start.civil m →
          Zone.newYork.OutOfReach origin m := by
  obtain ⟨s, hs, origin, -, ⟨hsecond, -⟩, -, hprev⟩ := previous_endOfGap
  have hin : origin.Inside 240000 := by
    unfold Stamp.Inside firstSecond lastSecond
    omega
  obtain ⟨-, hstarts, hnearest⟩ := previous_iff hs regular_newYork.within hin
  exact ⟨s, hs, origin, hsecond, hstarts.mp hprev,
    fun w start hw hstart => (hnearest regular_newYork w start hw hstart).mp hprev⟩

/-- **A search backward gives up although an instant before the origin shows a minute that the
schedule admits.** -/
theorem previous_gives_up : ∃ s, parse "* * * * *" = .ok s ∧ ∃ origin t : Instant,
    (origin.second = 1772953200 ∧ origin.nano = 0 ∧ t.second = origin.second - 60) ∧
      s.isDue Zone.newYork t = .ok true ∧ ¬ ∃ r, s.previous Zone.newYork origin = .ok r := by
  obtain ⟨s, hs, origin, t, hfigures, hdue, hprev⟩ := previous_endOfGap
  refine ⟨s, hs, origin, t, hfigures, hdue, ?_⟩
  rintro ⟨r, hr⟩
  rw [hprev] at hr
  cases hr

end Schedule

end Crontab
