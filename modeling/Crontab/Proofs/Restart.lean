import Crontab.Proofs.EndOfGap
import Crontab.Proofs.Halving

/-! # The minute from which a search sets out once more

A search that sets out from a fold sets out once more from the other pass: forward from the time to
which the clock is put back, backward from what it shows a minute before it is put back
(`Zone.otherPass?_eq_some`).  The turn itself is found to the second
(`Zone.TurnsOnce.second_of_rewind`), so forward that is the first minute of the second pass.
Backward it is to be the last minute of the first pass.  If the turn falls on the start of a minute,
the minute before the turn is that last one.  If it falls into a minute, the last one is the minute
that it falls into, and **a whole minute is too much to go back**
(`Zone.TurnsOnce.covers_iff`).
-/

namespace Crontab

open Outcome

namespace Zone

variable {z : Zone} {d : Direction} {origin earlier later : Instant} {w restart : WallTime}
  {turn u : Int}

/-- An instant at which the clock is in a minute that is shown at `earlier` and `later` lies before
`later` exactly if it lies before the turn. -/
theorem TurnsOnce.lt_iff (h : z.TurnsOnce earlier later turn) (hw : z.read origin = .ok w)
    (hlater : z.read later = .ok w.startOfMinute) : origin < later ↔ origin.second < turn := by
  have hbetween := h.between
  have hln := h.nano_eq.2
  have hls := (read_eq_ok.mp hlater).1
  have hos := (read_eq_ok.mp hw).1
  have hshown : w.startOfMinute.second = w.second - w.second % 60 := rfl
  rw [Stamp.lt_def]
  constructor
  · intro hpass
    by_contra hpast
    have := h.offsetAt_after (u := origin.second) (by omega) (by omega)
    omega
  · omega

/-- Two instants that a time yields both show it. -/
theorem read_of_showing_pair (hleap : ¬ w.IsLeap) (h : z.showing w = .ok [earlier, later]) :
    z.read earlier = .ok w ∧ z.read later = .ok w := by
  obtain ⟨guess, hguess, h⟩ := bind_eq_ok.mp h
  cases guess with
  | exact root =>
    obtain ⟨found, hfound, h⟩ := bind_eq_ok.mp h
    have hroot : ∀ t ∈ [root], z.read t = .ok w := by simpa using read_of_settle hleap hguess
    simpa using read_of_addTwin (read_of_addTwin hroot hfound) h
  | nearest kept =>
    -- a time that is not shown yields one instant
    obtain ⟨_, -, h⟩ := bind_eq_ok.mp h
    obtain ⟨guess', -, h⟩ := bind_eq_ok.mp h
    cases guess' <;> cases h

/-- **No minute of the first pass starts less than a minute before the turn exactly if the turn falls
on the start of a minute.**  If it falls into a minute, that one starts in the first pass. -/
theorem TurnsOnce.covers_iff (h : z.TurnsOnce earlier later turn) :
    (∀ u, earlier.second ≤ u → u < turn → (u + z.offsetAt u) % 60 = 0 →
      u + z.offsetAt u ≤ turn + z.offsetAt (turn - 1) - 60) ↔
      (turn + z.offsetAt (turn - 1)) % 60 = 0 := by
  obtain ⟨w, hw, hearlier, -⟩ := h.shown
  have hbetween := h.between
  have hminute : w.second - w.second % 60 = w.second := congrArg Stamp.second hw
  have hes := (read_eq_ok.mp hearlier).1
  have hlast := h.offsetAt_before (u := turn - 1) (by omega) (by omega)
  constructor
  · intro hall
    by_contra hmid
    -- the minute that the turn falls into starts in the first pass
    have hstart := h.offsetAt_before (u := turn - (turn + z.offsetAt (turn - 1)) % 60) (by omega)
      (by omega)
    have := hall (turn - (turn + z.offsetAt (turn - 1)) % 60) (by omega) (by omega) (by omega)
    omega
  · intro hwhole u hlow hu hstart
    have := h.offsetAt_before hlow hu
    omega

/-- **The minute from which a search sets out once more.**  A search sets out at `origin` from a
minute that starts at `earlier` and again at `later`, with one turn of the clock between the two.
Forward it sets out before the turn, and sets out once more from the minute that the clock shows at
the turn.  Backward it sets out from the turn on, and sets out once more from the minute that the
clock shows a minute before the turn.  If the clock goes on steadily from there, that is the last
minute that it shows before the turn if and only if the turn falls on the start of a minute.  If the
turn falls into a minute, it is the minute before that one, and the minute that the turn falls into
is left out although it starts in the first pass. -/
theorem otherPass?_minute (hw : z.read origin = .ok w)
    (hshowing : z.showing w.startOfMinute = .ok [earlier, later])
    (hturn : z.TurnsOnce earlier later turn)
    (h : z.otherPass? d origin w.startOfMinute = .ok (some restart)) :
    (d = .forward → origin.second < turn ∧ restart.startOfMinute.second = z.minuteAt turn) ∧
    (d = .backward → turn ≤ origin.second ∧
      restart.startOfMinute.second = z.minuteAt (turn - 60) ∧
      (z.offsetAt (turn - 60) = z.offsetAt (turn - 1) →
        (restart.startOfMinute.second = z.minuteAt (turn - 1) ↔
          (turn + z.offsetAt (turn - 1)) % 60 = 0) ∧
        ((∀ u, earlier.second ≤ u → u < turn → (u + z.offsetAt u) % 60 = 0 →
          u + z.offsetAt u ≤ restart.second) ↔ (turn + z.offsetAt (turn - 1)) % 60 = 0) ∧
        ((turn + z.offsetAt (turn - 1)) % 60 ≠ 0 →
          restart.startOfMinute.second = z.minuteAt (turn - 1) - 60))) := by
  obtain ⟨low, high, t, hts, hrewind, hend⟩ := otherPass?_eq_some h
  obtain ⟨rfl, rfl⟩ : low = earlier ∧ high = later := by
    simpa using Except.ok.inj (hts.symm.trans hshowing)
  have hlater := (read_of_showing_pair Stamp.not_isLeap_startOfMinute hshowing).2
  have hside := hturn.lt_iff hw hlater
  have hsecond := hturn.second_of_rewind hrewind
  have hstart : restart.startOfMinute.second = restart.second - restart.second % 60 := rfl
  unfold minuteAt
  rcases hend with ⟨rfl, hpass, hread⟩ | ⟨rfl, hpass, before, hadd, hread⟩
  · refine ⟨fun _ => ⟨hside.mp hpass, ?_⟩, nofun⟩
    rw [hstart, (read_eq_ok.mp hread).1, hsecond]
  · have hbefore := ((Stamp.add?_seconds_eq_some (hturn.nanos_of_rewind hrewind).1).mp hadd).1
    have hminute : before.second = turn - 60 := by omega
    have hrestart : restart.second = turn - 60 + z.offsetAt (turn - 60) := by
      rw [(read_eq_ok.mp hread).1, hminute]
    refine ⟨nofun, fun _ => ⟨Int.not_lt.mp (mt hside.mpr hpass), by rw [hstart, hrestart],
      fun hsteady => ?_⟩⟩
    rw [hsteady] at hrestart
    have hlast : restart.second = turn + z.offsetAt (turn - 1) - 60 := by omega
    refine ⟨by omega, ?_, by omega⟩
    rw [hlast]
    exact hturn.covers_iff

/-! ### Standard time in New York -/

theorem offsetAt_standardTime : newYork.offsetAt (-2717650800 - 60) = -17762 ∧
    newYork.offsetAt (-2717650800 - 1) = -17762 ∧ newYork.offsetAt (-2717650800) = -18000 := by
  decide +kernel

/-- On 18 November 1883 the clock of New York is put back from 12:03:58 to noon.  Backward from two
past noon on the second pass a search sets out once more from what the clock showed a minute before
it was put back, which is 58 seconds past 12:02. -/
theorem exists_restart_standardTime : ∃ (origin earlier : Instant) (w restart : WallTime),
    (origin.second = -2717650680 ∧ origin.nano = 0) ∧
      (earlier.second = -2717650918 ∧ restart.second = -2717668622) ∧
      newYork.read origin = .ok w ∧ w.OnMinute ∧
      newYork.showing w.startOfMinute = .ok [earlier, origin] ∧
      newYork.otherPass? .backward origin w.startOfMinute = .ok (some restart) :=
  ⟨⟨-2717650680, 0, by decide, by decide, by decide⟩,
    ⟨-2717650918, 0, by decide, by decide, by decide⟩,
    ⟨-2717668680, 0, by decide, by decide, by decide⟩,
    ⟨-2717668622, 70312500, by decide, by decide, by decide⟩, by decide +kernel⟩

/-- The turn to standard time falls into a minute, so backward from two past noon a search sets out
once more from the minute before the last one of the first pass. -/
theorem otherPass?_minute_standardTime : ∃ (origin : Instant) (w restart : WallTime),
    origin.second = -2717650680 ∧ newYork.read origin = .ok w ∧
      newYork.otherPass? .backward origin w.startOfMinute = .ok (some restart) ∧
      restart.startOfMinute.second = newYork.minuteAt (-2717650800 - 1) - 60 := by
  obtain ⟨origin, earlier, w, restart, ⟨hos, -⟩, ⟨hes, -⟩, hw, hminute, hshowing, hother⟩ :=
    exists_restart_standardTime
  obtain ⟨hminuteAgo, hbefore, hafter⟩ := offsetAt_standardTime
  have hchanges : newYork.Changes (-2717650800) := by
    rw [Changes]
    omega
  obtain ⟨hearlier, hlater⟩ := read_of_showing_pair Stamp.not_isLeap_startOfMinute hshowing
  have hturn := Schedule.regular_newYork.toSpaced.turnsOnce
    (congrArg Stamp.startOfMinute hminute) hearlier hlater hchanges ⟨by omega, by omega⟩
  obtain ⟨-, hbackward⟩ := otherPass?_minute hw hshowing hturn hother
  obtain ⟨-, -, hsteady⟩ := hbackward rfl
  obtain ⟨-, -, hmid⟩ := hsteady (hminuteAgo.trans hbefore.symm)
  exact ⟨origin, w, restart, hos, hw, hother, hmid (by omega)⟩

/-- **A minute of the first pass is left out.**  Three past noon starts 58 seconds before standard
time comes to New York, and it is the last minute that the clock shows before.  Backward from two
past noon on the second pass a search sets out once more from an earlier minute, and what it finds
lies a day before. -/
theorem otherPass?_leavesOut : ∃ s, Schedule.parse "3 12 * * *" = .ok s ∧
    ∃ (origin missed found : Instant) (w restart : WallTime),
      (origin.second = -2717650680 ∧ origin.nano = 0) ∧ newYork.read origin = .ok w ∧
      newYork.otherPass? .backward origin w.startOfMinute = .ok (some restart) ∧
      restart.startOfMinute.second < newYork.minuteAt (-2717650800 - 1) ∧
      missed.second = -2717650858 ∧ s.isDue newYork missed = .ok true ∧
      s.previous newYork origin = .ok found ∧ found.second = missed.second - 86400 := by
  obtain ⟨origin, -, w, restart, ⟨hos, hon⟩, ⟨-, hrs⟩, hw, -, -, hother⟩ :=
    exists_restart_standardTime
  have hstart : restart.startOfMinute.second = restart.second - restart.second % 60 := rfl
  have hbefore := offsetAt_standardTime.2.1
  obtain rfl : origin = ⟨-2717650680, 0, by decide, by decide, by decide⟩ :=
    Stamp.eq_of_figures hos hon
  obtain ⟨s, hs, hdue, hprevious⟩ := Schedule.exists_of_parse "3 12 * * *" (fun s =>
    s.isDue newYork ⟨-2717650858, 0, by decide, by decide, by decide⟩ = .ok true ∧
      s.previous newYork ⟨-2717650680, 0, by decide, by decide, by decide⟩ =
        .ok ⟨-2717737258, 0, by decide, by decide, by decide⟩) (by decide +kernel)
  refine ⟨s, hs, _, _, _, w, restart, ⟨hos, hon⟩, hw, hother, ?_, rfl, hdue, hprevious, rfl⟩
  unfold minuteAt
  omega

end Zone

end Crontab
