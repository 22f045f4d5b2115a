import Crontab.Proofs.RoundTrip

/-! # Times that the clock skips

When a clock is put forward it skips the times in between.  No instant shows them, so guessing
misses each of them three times over (`Zone.Skips.settle`), wherever the first guess lies.  The time
an hour later is skipped no more if the clock is put forward by an hour at most.  It is shown once,
after the turn (`Zone.Skips.read_hourLater_iff`), and guessing settles on the instant that shows it
(`Zone.Spaced.settle_of_shown`).

So **a skipped time is taken to the instant that shows the time an hour later**
(`Zone.showing_skipped`), whatever the size of the gap and wherever its ends lie in their minutes.

A leap second is skipped too where the second that it is added to is.  The time an hour later then
lies outside leap seconds, and the way back from there by an hour does not lead to the leap second
again.  At midnight, where the clock shows a second beside the leap second, guessing may take the one
for the other (`Zone.LeapAtMidnight`).
-/

namespace Crontab.Zone

variable {z : Zone} {w later : WallTime} {turn : Int} {t : Instant}

/-- A time that is skipped is shown at no instant. -/
theorem Skips.not_read (h : z.Skips turn w.second) (hz : z.Spaced) (t : Instant) :
    z.read t ≠ .ok w := by
  intro ht
  have hs := (read_eq_ok.mp ht).1
  rcases hz.sides_of_skips h t.second with ⟨-, hlt⟩ | ⟨-, hlt⟩ <;> omega

/-- **A leap second at midnight beside which the gap ends or begins**: at the end of the day, when the
gap ends there too, or at its start, when the gap begins there and the clock has been a second
behind universal time. -/
def LeapAtMidnight (z : Zone) (turn : Int) (w : WallTime) : Prop :=
  w.IsLeap ∧
    (w.secondOfDay = 86399 ∧ turn + z.offsetAt turn = w.second + 1 ∨
      w.secondOfDay = 0 ∧ turn = w.second + 1 ∧ z.offsetAt (turn - 1) = -1)

/-- **Guessing misses a time that is skipped.** -/
theorem Skips.settle (h : z.Skips turn w.second) (hz : z.Spaced) (hin : w.Inside 50)
    (hmidnight : ¬ z.LeapAtMidnight turn w) : ∃ kept, z.settle w = .ok (.nearest kept) := by
  by_cases hleap : w.IsLeap
  · obtain ⟨g, hg⟩ := exists_settle_leap hz.within hin hleap
    rcases settle_leap_cases hz.within hleap hg with
      ⟨t, shown, rfl, ⟨hguess, -⟩, hread, hzero⟩ | ⟨kept, rfl, -⟩
    · have hs := (read_eq_ok.mp hread).1
      rcases hguess.of_since_eq_zero hleap hread hzero with
        ⟨rfl, rfl⟩ | ⟨hafter, hday⟩ | ⟨rfl, hbefore, hday⟩
      · exact absurd hread (h.not_read hz _)
      · -- the second after is shown, so the gap ends with the leap second
        refine absurd ⟨hleap, Or.inl ⟨hday, ?_⟩⟩ hmidnight
        obtain ⟨hlow, hhigh⟩ := h
        by_contra hne
        have hskips : z.Skips turn (w.second + 1) := ⟨by omega, by omega⟩
        rcases hz.sides_of_skips hskips t.second with ⟨-, hlt⟩ | ⟨-, hlt⟩ <;> omega
      · -- the second before is shown, which only the clock before the turn can do
        rw [Stamp.second_readOn] at hs
        refine absurd ⟨hleap, Or.inr ⟨hday, ?_⟩⟩ hmidnight
        have hbound := (hz.within (turn - 1)).1
        have hturn : w.second < turn := by
          rcases hz.sides_of_skips h w.second with ⟨hlt, -⟩ | ⟨-, hlt⟩ <;> omega
        have := hz.offsetAt_before h.changes (u := w.second) (by have := h.1; omega) hturn
        have := h.1
        omega
    · exact ⟨kept, hg⟩
  · rcases settle_spec hz.within (hin.mono (by decide)) hleap with ⟨t, -, ht⟩ | ⟨kept, hkept, -⟩
    · exact absurd ht (h.not_read hz t)
    · exact ⟨kept, hkept⟩

/-- **Guessing settles on an instant that shows a time**, if there is one. -/
theorem Spaced.settle_of_shown (hz : z.Spaced) (hin : w.Inside 48) (hleap : ¬ w.IsLeap)
    (ht : z.read t = .ok w) : ∃ u, z.settle w = .ok (.exact u) ∧ z.read u = .ok w := by
  rcases settle_spec hz.within hin hleap with hexact | ⟨_, -, -, hmiss⟩
  · exact hexact
  · exact absurd hmiss (hz.not_misses ht)

/-- **The time an hour after a skipped one is shown once, after the turn**, if the clock is put
forward by an hour at most. -/
theorem Skips.read_hourLater_iff (h : z.Skips turn w.second) (hz : z.Spaced)
    (hhour : z.offsetAt turn - z.offsetAt (turn - 1) ≤ 3600)
    (hlater : later.second = w.second + 3600) :
    z.read t = .ok later ↔
      turn ≤ t.second ∧ t.second + z.offsetAt turn = w.second + 3600 ∧ t.nano = later.nano := by
  have hc := h.changes
  have hwithin := hz.within
  have hturn := hwithin turn
  obtain ⟨hlow, hhigh⟩ := h
  rw [read_eq_ok, hlater]
  constructor
  · rintro ⟨hs, hn⟩
    have ht := hwithin t.second
    have hbefore := hwithin (turn - 1)
    rcases Int.lt_or_le t.second turn with hlt | hle
    · have := hz.offsetAt_before hc (by omega) hlt
      omega
    · have := hz.offsetAt_after hc hle (by omega)
      exact ⟨hle, by omega, hn.symm⟩
  · rintro ⟨hle, hs, hn⟩
    have := hz.offsetAt_after hc hle (by omega)
    exact ⟨by omega, hn.symm⟩

/-- **A time that is skipped is taken to the instant that shows the time an hour later.**  The clock
is put forward at `turn`, by an hour at most, past the time `w`.  The time is taken to one instant,
which is the one that the time alone is taken to.  It lies from the turn on, and the clock shows an
hour more than `w` there.  If the clock is put forward by an hour exactly, it is the time less the
offset that was in force before the turn, where for a leap second this offset has to be negative.

Leap seconds at midnight beside the gap are left out, since guessing may take the second beside such
a leap second for it. -/
theorem showing_skipped (hz : z.Spaced) (h : z.Skips turn w.second)
    (hhour : z.offsetAt turn - z.offsetAt (turn - 1) ≤ 3600) (hin : w.Inside 96) :
    ∃ x, z.showing w = .ok [x] ∧ z.firstShowing w = .ok x ∧
      (¬ z.LeapAtMidnight turn w → turn ≤ x.second ∧
        ∃ later, w.add? (Duration.hours 1) = some later ∧ z.read x = .ok later ∧
          (z.offsetAt turn - z.offsetAt (turn - 1) = 3600 →
            ((w.readOn .utc).add? (Duration.seconds (-z.offsetAt (turn - 1))) = some x ↔
              (w.IsLeap → z.offsetAt (turn - 1) < 0)))) := by
  by_cases hmidnight : z.LeapAtMidnight turn w
  · obtain ⟨x, hx, -⟩ := showing_leap hz.within (hin.mono (by decide)) hmidnight.1
    exact ⟨x, hx, firstShowing_of_showing hx, fun hnot => absurd hmidnight hnot⟩
  have hafter := hz.within turn
  obtain ⟨kept, hsettle⟩ := h.settle hz (hin.mono (by decide)) hmidnight
  obtain ⟨hf, hl⟩ := hin
  -- the time an hour later, and the instant that shows it
  obtain ⟨later, hlater, hls, hlater0, hln, hln'⟩ := Stamp.exists_hourLater (t := w) (by omega)
  have hiff := fun t => h.read_hourLater_iff (t := t) hz hhour hls
  have hfu : firstSecond ≤ w.second + 3600 - z.offsetAt turn := by omega
  have hlu : w.second + 3600 - z.offsetAt turn ≤ lastSecond := by omega
  obtain ⟨u, -, hus, hun⟩ := Stamp.exists_of? .utc hfu hlu later.nano_lt
  have hlow := h.1
  have hu : z.read u = .ok later := (hiff u).mpr ⟨by omega, by omega, hun⟩
  -- guessing misses the time and settles on that instant
  obtain ⟨x, hsettle', hx⟩ := hz.settle_of_shown (w := later) ⟨by omega, by omega⟩ hlater0 hu
  obtain ⟨hturn, hxs, hxn⟩ := (hiff x).mp hx
  have hshowing : z.showing w = .ok [x] := by
    simp [showing, hsettle, hlater, hsettle', orOutOfCalendar, bind, Except.bind, pure,
      Except.pure]
  refine ⟨x, hshowing, firstShowing_of_showing hshowing, fun _ =>
    ⟨hturn, later, hlater, hx, fun hexact => ?_⟩⟩
  by_cases hleap : w.IsLeap
  · have hxn' : x.nano + 1000000000 = w.nano := hxn ▸ hln' hleap
    constructor
    · intro hadd _
      obtain ⟨-, ⟨-, rfl⟩ | ⟨hpos, hs⟩ | ⟨hneg, -⟩⟩ := leapGuess_of_twin hleap hadd
      · rw [Stamp.nano_readOn] at hxn'
        omega
      · omega
      · exact hneg
    · intro hneg
      have := hneg hleap
      refine (Stamp.add?_leap_eq_some (t := w.readOn .utc) hleap (by omega)).mpr ⟨Or.inl ?_, hxn'⟩
      rw [Stamp.second_readOn]
      omega
  · refine iff_of_true ?_ fun h => absurd h hleap
    exact (Stamp.add?_seconds_eq_some (t := w.readOn .utc) hleap).mpr
      ⟨by rw [Stamp.second_readOn]; omega, hxn.trans (hln hleap)⟩

/-- The clocks of Monrovia were put forward by forty-four and a half minutes at the start of 7
January 1972, and those of the east of the United States by an hour at two on 8 March 2026.  Half a
second past 0:15:20 is taken to the first time an hour later, and half past two to the second. -/
theorem showing_skipped_monrovia :
    (∃ (z : Zone) (w later : WallTime) (x : Instant),
      (z.offsetAt 63593069 = -2670 ∧ z.offsetAt 63593070 = 0) ∧
      (w.second = 63591320 ∧ w.nano = 500000000) ∧ z.showing w = .ok [x] ∧
      w.add? (Duration.hours 1) = some later ∧ z.read x = .ok later) ∧
    ∃ (w : WallTime) (x : Instant), w.second = 1772937000 ∧ eastern.showing w = .ok [x] ∧
      eastern.firstShowing w = .ok x ∧
      (w.readOn .utc).add? (Duration.seconds 18000) = some x := by
  constructor
  · let z : Zone := ⟨"Monrovia, 1972", -2670, [⟨63593070, 0⟩]⟩
    let w : WallTime := ⟨63591320, 500000000, by decide, by decide, by decide⟩
    have hz : z.Regular := regular_of_transitions (-2670) (by decide) (by decide)
    have hskips : z.Skips 63593070 w.second := ⟨by decide, by decide⟩
    obtain ⟨x, hshowing, -, hrest⟩ :=
      showing_skipped hz.toSpaced hskips (by decide) (by decide)
    obtain ⟨-, later, hlater, hread, -⟩ := hrest fun h => absurd h.1 (by decide)
    exact ⟨z, w, later, x, ⟨rfl, rfl⟩, ⟨rfl, rfl⟩, hshowing, hlater, hread⟩
  · let w : WallTime := ⟨1772937000, 0, by decide, by decide, by decide⟩
    have hskips : eastern.Skips 1772953200 w.second := ⟨by decide, by decide⟩
    obtain ⟨x, hshowing, hfirst, hrest⟩ :=
      showing_skipped wholeMinutes_eastern.toSpaced hskips (by decide) (by decide)
    obtain ⟨-, later, -, -, hexact⟩ := hrest fun h => absurd h.1 (by decide)
    exact ⟨w, x, rfl, hshowing, hfirst, (hexact (by decide)).mpr fun h => absurd h (by decide)⟩

/-- **Skipped leap seconds that are not taken where other skipped times are.**  The clocks of Berlin
skip the times from two to three on 29 March 2026, and those of the last hour of 30 April 1916.  The
leap second at the end of the minute from half past two on is taken to an instant that shows the time
an hour later but is not the leap second less an hour.  The leap second at the end of the other day
is taken to an instant that does not show the time an hour later.  A clock that has been a second
behind universal time can skip a leap second that is taken to an instant before the turn. -/
theorem showing_skipped_leapSecond :
    (∃ (z : Zone) (w later : WallTime) (x : Instant), z.Spaced ∧
      (z.offsetAt 1774745999 = 3600 ∧ z.offsetAt 1774746000 = 7200) ∧
      (w.second = 1774751459 ∧ w.nano = 1500000000) ∧ z.Skips 1774746000 w.second ∧
      z.showing w = .ok [x] ∧ w.add? (Duration.hours 1) = some later ∧ z.read x = .ok later ∧
      (w.readOn .utc).add? (Duration.seconds (-3600)) ≠ some x) ∧
    (∃ (z : Zone) (w later : WallTime) (x : Instant), z.Spaced ∧
      (z.offsetAt (-1693706401) = 3600 ∧ z.offsetAt (-1693706400) = 7200) ∧
      (w.second = -1693699201 ∧ w.nano = 1500000000) ∧ z.Skips (-1693706400) w.second ∧
      z.showing w = .ok [x] ∧ w.add? (Duration.hours 1) = some later ∧ z.read x ≠ .ok later) ∧
    ∃ (z : Zone) (w : WallTime) (x : Instant), z.Spaced ∧
      (z.offsetAt 0 = -1 ∧ z.offsetAt 1 = 3599) ∧ (w.second = 0 ∧ w.nano = 1500000000) ∧
      z.Skips 1 w.second ∧ z.showing w = .ok [x] ∧ x.second = 0 := by
  refine ⟨?_, ?_, ?_⟩
  · exact ⟨⟨"Berlin, 2026", 3600, [⟨1774746000, 7200⟩]⟩,
      ⟨1774751459, 1500000000, by decide, by decide, by decide⟩,
      ⟨1774755059, 500000000, by decide, by decide, by decide⟩,
      ⟨1774747859, 500000000, by decide, by decide, by decide⟩,
      (regular_of_transitions 3600 (by decide) (by decide)).toSpaced, by decide, ⟨rfl, rfl⟩,
      ⟨by decide, by decide⟩, by decide +kernel, by decide, by decide, by decide⟩
  · exact ⟨⟨"Berlin, 1916", 3600, [⟨-1693706400, 7200⟩]⟩,
      ⟨-1693699201, 1500000000, by decide, by decide, by decide⟩,
      ⟨-1693695601, 500000000, by decide, by decide, by decide⟩,
      ⟨-1693706400, 500000000, by decide, by decide, by decide⟩,
      (regular_of_transitions 3600 (by decide) (by decide)).toSpaced, by decide, ⟨rfl, rfl⟩,
      ⟨by decide, by decide⟩, by decide +kernel, by decide, by decide⟩
  · exact ⟨⟨"a second behind", -1, [⟨1, 3599⟩]⟩,
      ⟨0, 1500000000, by decide, by decide, by decide⟩,
      ⟨0, 1500000000, by decide, by decide, by decide⟩,
      (regular_of_transitions (-1) (by decide) (by decide)).toSpaced, by decide, ⟨rfl, rfl⟩,
      ⟨by decide, by decide⟩, by decide +kernel, rfl⟩

end Crontab.Zone
