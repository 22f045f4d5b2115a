import Crontab.Proofs.EndOfGap
import Crontab.Proofs.Later

/-! # Searches far from a gap

Whether a search gives up is settled within fifty hours of its origin.  The nearest admitted minute
has an instant past the origin if it begins at all, and one that does not begin is passed over by a
clock that is put forward, with a stand-in less than two days from there
(`Schedule.withinReach_of_start`).  From the other pass of a fold the search goes on to the same
minutes at the latest (`Schedule.withinReach_of_fold`).

So **where no clock is put forward nearby a search finds an occurrence in either direction**
(`Schedule.exists_occurrence`).  Folds lie far from gaps (`Zone.ShowsTwice.noGapAround`).
-/

namespace Crontab

open Outcome

namespace Zone

variable {z : Zone} {turn turn' second a b : Int} {m : CivilMinute}

/-- The clock is put forward at a second. -/
def PutForward (z : Zone) (second : Int) : Prop := z.offsetAt (second - 1) < z.offsetAt second

instance (z : Zone) (second : Int) : Decidable (z.PutForward second) :=
  inferInstanceAs (Decidable (_ < _))

theorem PutForward.changes (h : z.PutForward turn) : z.Changes turn := Int.ne_of_lt h

theorem PassesOver.putForward (h : z.PassesOver turn m) : z.PutForward turn := by
  obtain ⟨hlow, hhigh⟩ := h
  unfold PutForward
  omega

/-- **No clock is put forward** from fifty hours before the earlier of two seconds to fifty hours
after the later. -/
def NoGapAround (z : Zone) (a b : Int) : Prop :=
  ∀ turn, z.PutForward turn → turn + 180000 ≤ min a b ∨ max a b + 180000 ≤ turn

theorem NoGapAround.left (h : z.NoGapAround a b) : z.NoGapAround a a := by
  intro turn hturn
  have := h turn hturn
  omega

/-- No clock is put forward so close to a fold. -/
theorem ShowsTwice.noGapAround (hz : z.Regular) (h : z.ShowsTwice turn second)
    (ha : (a - turn).natAbs ≤ 79200) (hb : (b - turn).natAbs ≤ 79200) : z.NoGapAround a b := by
  intro turn' hforward
  by_contra hnear
  obtain rfl := hz.eq_of_near hforward.changes h.changes (by omega)
  have hbefore := h.before
  have hafter := h.after
  unfold PutForward at hforward
  omega

end Zone

namespace Schedule

variable {s : Schedule} {z : Zone} {d : Direction} {origin r : Instant}
  {start restart w : WallTime}

/-- **Far from a gap an occurrence is within reach** of the minute next to that of the origin. -/
theorem withinReach_of_start (hv : s.Valid) (hz : z.Regular) (hin : origin.Inside 240000)
    (hgap : z.NoGapAround origin.second origin.second)
    (hstart : start.second = z.minuteAt origin.second + d.sign * 60) :
    s.WithinReach z d origin start := by
  have ho := hz.within origin.second
  have hminute := z.minuteAt_le origin.second
  have hsign : d.sign.natAbs = 1 := by cases d <;> rfl
  obtain ⟨hf, hl⟩ := hin
  have hin' : start.Inside (79200 * (2 : Nat) + 79320) := ⟨by omega, by omega⟩
  obtain ⟨c, _, _, -, hc, -, -, -, -, hnear, -⟩ := exists_nearest hv d hin'
  have hpass := passes_of_minuteAt (passes_of_candidate hstart hc.candidate)
  have huse := hc.candidate.inUse
  by_cases hbegins : ∃ u, z.Begins u c
  · obtain ⟨u, hu⟩ := hbegins
    exact withinReach_of_begins hz hc.amongNearest (by omega) (by omega) hu
      (Direction.reaches_refl _ _) hpass
  · obtain ⟨turn, hover, hclose, wall, t, hwall, ht⟩ := hz.passesOver huse (by omega) (by omega)
      fun u hu => hbegins ⟨u, hu⟩
    refine ⟨c, hc.amongNearest, wall, [t], t, hwall, ht, List.mem_cons_self, ?_⟩
    -- the stand-in lies less than two days from the turn, and the turn far past the origin
    obtain ⟨hws, hwn, -⟩ := CivilMinute.figures_of_toWall? hwall
    obtain ⟨-, htnear⟩ := Zone.showing_nearby hz.within (Stamp.not_isLeap_of_nano_eq_zero hwn) ht
      List.mem_cons_self
    have hfar := hgap turn hover.putForward
    have hmeets := hz.meets hover hpass
    cases d <;> simp only [Direction.Past, Direction.Meets, Stamp.lt_def] at * <;> omega

/-- **Setting out once more, a search forward always finds an occurrence.** -/
theorem withinReach_of_fold (hv : s.Valid) (hz : z.Regular) (hin : origin.Inside 240000)
    (hw : z.read origin = .ok w)
    (h : z.otherPass? .forward origin w.startOfMinute = .ok (some restart)) :
    s.WithinReach z .forward origin restart := by
  obtain ⟨turn, htwice, hmeets, hrestart⟩ := hz.turn_of_otherPass? (hin.mono (by decide)) hw h
  have ho := hz.within origin.second
  have hminute := z.minuteAt_le origin.second
  obtain ⟨_, start, hw', -, hshown, hstart⟩ :=
    exists_start hz.within .forward (hin.mono (show 48 ≤ 240000 by decide))
  obtain rfl := Except.ok.inj (hw.symm.trans hw')
  rw [hshown] at htwice
  have hfold := htwice.near hz hminute.1 hminute.2
  have hin144 : origin.Inside 144 := hin.mono (by decide)
  have hsign : Direction.forward.sign = 1 := rfl
  obtain ⟨hf, hl⟩ := hin
  -- the nearest minute past that of the origin lies ahead from the other pass too
  have hin' : start.Inside (79200 * (2 : Nat) + 79320) := ⟨by omega, by omega⟩
  obtain ⟨c, _, _, -, hc, -, -, -, -, hnear, -⟩ := exists_nearest hv .forward hin'
  have hpass := passes_of_candidate (d := .forward) hstart hc.candidate
  have hcand : s.Candidate .forward restart.civil c :=
    candidate_of_passes hc.candidate.admitted hpass (Or.inr ⟨turn, htwice, hmeets, hrestart⟩)
  have hafter := htwice.after
  have hrestart' : restart.second = turn + z.offsetAt turn := hrestart
  simp only [Direction.Passes] at hpass
  obtain ⟨x, hx⟩ := exists_firstPast_of_fold (n := 1) hv hz htwice hmeets hin144 (by omega) hrestart
    hcand (by omega) (by omega)
  obtain ⟨m, hm, hamong⟩ := (firstPast_eq_ok_iff hv).mp hx
  obtain ⟨wall, ts, hwall, hts, hpick⟩ := hm.resolves
  obtain ⟨hmem, hpast⟩ := Direction.pick_eq_some hpick
  exact ⟨m, hamong, wall, ts, x, hwall, hts, hmem, hpast⟩

/-- **Where no clock is put forward nearby a search finds an occurrence**, in either direction. -/
theorem exists_occurrence (hv : s.Valid) (hz : z.Regular) (d : Direction)
    (hin : origin.Inside 240000) (hgap : z.NoGapAround origin.second origin.second) :
    ∃ r, s.occurrence z d origin = .ok r ∧ d.Past origin r := by
  rcases occurrence_outcome hv hz.within d hin with ⟨hfound, -⟩ | ⟨-, start, hstart, hnot⟩
  · exact hfound
  exfalso
  apply hnot
  obtain ⟨w, hw, hadd | hother⟩ := hstart
  · exact withinReach_of_start hv hz hin hgap (second_start hw hadd).2
  · cases d with
    | forward => exact withinReach_of_fold hv hz hin hw hother
    | backward => exact withinReach_of_restart hv hz hin hw hother

/-- What a search finds far from the ends of the calendar lies inside it. -/
theorem inside_of_occurrence (hv : s.Valid) (hz : z.WithinDay) (hin : origin.Inside 240000)
    (h : s.occurrence z d origin = .ok r) : r.Inside 96 := by
  obtain ⟨w, start, found, hw, hadd, hfound, hend⟩ := occurrence_eq_ok_iff.mp h
  have ho := hz origin.second
  have hminute := z.minuteAt_le origin.second
  obtain ⟨hshown, hstart⟩ := second_start hw hadd
  have hsign : d.sign.natAbs = 1 := by cases d <;> rfl
  obtain ⟨hf, hl⟩ := hin
  have key : ∀ {start : WallTime} {x : Instant}, (start.second - origin.second).natAbs ≤ 432000 →
      s.firstPast z d origin maxAttempts start = .ok x → x.Inside 96 := by
    intro start x hnear hx
    obtain ⟨m, hm, hamong⟩ := (firstPast_eq_ok_iff hv).mp hx
    have hfar := hamong.near hv (by rw [maxAttempts]; exact ⟨by omega, by omega⟩)
    have hxm := (hm.resolves.nearby hz).2
    rw [maxAttempts] at hfar
    exact ⟨by omega, by omega⟩
  have hx := key (by omega) hfound
  rcases hend with ⟨-, rfl⟩ | ⟨restart, again, hother, hagain, rfl⟩
  · exact hx
  · have hin' : w.startOfMinute.Inside 96 := ⟨by omega, by omega⟩
    obtain ⟨other, hother', hnear⟩ :=
      Zone.exists_otherPass hz d origin hin' Stamp.not_isLeap_startOfMinute
    have := hnear restart (Except.ok.inj (hother'.symm.trans hother))
    rcases Direction.nearer_eq d found again with he | he
    · rw [he]
      exact hx
    · rw [he]
      exact key (by omega) hagain

end Schedule

end Crontab
