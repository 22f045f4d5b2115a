import Crontab.Proofs.LeapSecond
import Crontab.Proofs.Retries
import Crontab.Proofs.Regular

/-! # Where a clock cannot be read

Within an offset of the ends of the calendar there are seconds at which a clock would have to
show a time of a year that is not in use (`Zone.OffCalendar`).  There, and nowhere else, the
reading of the clock fails.

Looking for the instants that show a time begins with reading the clock at that time as it were
universal time, so it fails off the calendar too.  On a clock that is not changed near the ends
(`Zone.Calm`) it fails nowhere else: the next guess is right or has left the calendar, and no
other instant shows the time (`Zone.Calm.showing_near`).  So **the one lookup that decides is the
first** (`Zone.Calm.showing_eq_noReading`, `Zone.Calm.otherPass?_eq_noReading`).

Only for a leap second there may be another.  Guesses at one go on past the second, but stay where
the clock can be read if it can at the first (`Zone.Calm.next_onCalendar`).  Where they miss, the
time an hour later is looked up, and that may lie off the calendar
(`Zone.Calm.showing_leap_eq_noReading`).
-/

namespace Crontab

open Outcome

namespace Zone

variable {z : Zone} {d : Direction} {origin t : Instant} {w : WallTime} {e : SearchError}
  {second a b : Int}

/-- At the second the offset takes the clock out of the years in use. -/
def OffCalendar (z : Zone) (second : Int) : Prop :=
  ¬ (firstSecond ≤ second + z.offsetAt second ∧ second + z.offsetAt second ≤ lastSecond)

/-- A clock is off the calendar within a day of its ends only. -/
theorem OffCalendar.near_end (hz : z.WithinDay) (h : z.OffCalendar second) :
    second < firstSecond + 86400 ∨ lastSecond - 86400 < second := by
  have := hz second
  unfold OffCalendar at h
  omega

theorem exists_read_iff : (∃ w, z.read t = .ok w) ↔ ¬ z.OffCalendar t.second := by
  unfold OffCalendar
  constructor
  · rintro ⟨w, hw⟩ hoff
    have := w.first_le
    have := w.le_last
    have := (read_eq_ok.mp hw).1
    omega
  · intro h
    obtain ⟨hf, hl⟩ := Classical.not_not.mp h
    obtain ⟨w, -, hs, hn⟩ := Stamp.exists_of? .wall hf hl t.nano_lt
    exact ⟨w, read_eq_ok.mpr ⟨hs, hn⟩⟩

/-- **Reading a clock fails exactly off the calendar**, and always in the same way. -/
theorem read_eq_error : z.read t = .error e ↔ e = .noReading ∧ z.OffCalendar t.second := by
  constructor
  · intro h
    have hoff : z.OffCalendar t.second := by
      apply Classical.not_not.mp
      intro hon
      obtain ⟨w, hw⟩ := exists_read_iff.mpr hon
      rw [hw] at h
      cases h
    unfold read at h
    split at h
    · cases h
    · cases h
      exact ⟨rfl, hoff⟩
  · rintro ⟨rfl, hoff⟩
    cases hread : z.read t with
    | ok w => exact absurd hoff (exists_read_iff.mp ⟨w, hread⟩)
    | error e =>
      unfold read at hread
      split at hread
      · cases hread
      · exact hread.symm

theorem read_eq_noReading : z.read t = .error .noReading ↔ z.OffCalendar t.second := by
  simp [read_eq_error]

/-! ### Clocks that are not changed near the ends -/

/-- **A clock that is not changed in the first and the last week of the calendar**, and whose
offsets are less than a day. -/
structure Calm (z : Zone) : Prop where
  within : z.WithinDay
  changes : ∀ turn, z.Changes turn → firstSecond + 604800 < turn ∧ turn ≤ lastSecond - 604800

theorem calm_of_transitions
    (hoffsets : ∀ o ∈ z.initial :: z.transitions.map Transition.offset, -86400 < o ∧ o < 86400)
    (hts : ∀ t ∈ z.transitions,
      firstSecond + 604800 < t.second ∧ t.second ≤ lastSecond - 604800) : z.Calm where
  within := withinDay_of_offsets hoffsets
  changes turn hturn := by
    obtain ⟨t, ht, rfl⟩ := exists_of_offsetFrom_ne hturn
    exact hts t ht

/-- Around a second near an end the offset stands still. -/
theorem Calm.offsetAt_eq (hz : z.Calm)
    (hend : second < firstSecond + 345600 ∨ lastSecond - 345600 < second)
    (ha : (a - second).natAbs ≤ 172800) : z.offsetAt a = z.offsetAt second := by
  have hsteady : ∀ {u v}, u ≤ v → (u - second).natAbs ≤ 172800 → (v - second).natAbs ≤ 172800 →
      z.offsetAt v = z.offsetAt u := by
    intro u v huv hu hv
    refine offsetAt_eq_of_steady huv fun turn hlow hhigh hturn => ?_
    have := hz.changes turn hturn
    unfold firstSecond lastSecond at *
    omega
  rcases Int.le_total a second with hle | hle
  · exact (hsteady hle ha (by omega)).symm
  · exact hsteady hle (by omega) ha

/-- A time that does not lie four days inside the calendar lies near an end. -/
theorem near_end_of_not_inside (h : ¬ w.Inside 96) :
    w.second < firstSecond + 345600 ∨ lastSecond - 345600 < w.second := by
  unfold Stamp.Inside at h
  omega

/-! ### Guessing near the ends -/

/-- A guess that misses is followed by the time less the offset in force there, if the calendar
has it. -/
theorem settleFrom_of_miss {shown : WallTime} (hleap : ¬ w.IsLeap) (h : z.read t = .ok shown)
    (hn : t.nano = w.nano) (hne : shown.second ≠ w.second) (rounds : Nat)
    (best : Option (Nat × Instant)) :
    z.settleFrom w (rounds + 1) t best =
      orOutOfCalendar (Stamp.of? (w.second - z.offsetAt t.second) w.nano) >>= fun next =>
        z.settleFrom w rounds next (some (closer best (w.since shown).natAbs t)) := by
  obtain ⟨hs, hshown⟩ := read_eq_ok.mp h
  have hsince : w.since shown = Duration.seconds (w.second - shown.second) :=
    Stamp.since_seconds hleap (by omega)
  have hzero : w.since shown ≠ 0 := by
    rw [hsince, Ne, Duration.seconds_eq_zero]
    omega
  have hadd : t.add? (w.since shown) = Stamp.of? (w.second - z.offsetAt t.second) w.nano := by
    rw [hsince, Stamp.add?_seconds (Stamp.not_isLeap_of_nano hleap hn), hn]
    congr 1
    omega
  simp [settleFrom, h, hzero, hadd, bind, Except.bind]

/-- **Near an end of the calendar the second guess shows the time at the latest**, unless the clock
cannot be read at the first or the second is not in the calendar. -/
theorem Calm.settle_near (hz : z.Calm) (hleap : ¬ w.IsLeap)
    (hend : w.second < firstSecond + 345600 ∨ lastSecond - 345600 < w.second) :
    z.OffCalendar w.second ∧ z.settle w = .error .noReading ∨
      z.settle w = .error .outOfCalendar ∨
      ∃ t, z.settle w = .ok (.exact t) ∧ z.read t = .ok w := by
  have ho := hz.within w.second
  by_cases hoff : z.OffCalendar w.second
  · have hread : z.read (w.readOn .utc) = .error .noReading := read_eq_noReading.mpr hoff
    exact Or.inl ⟨hoff, bind_eq_error.mpr (Or.inl hread)⟩
  · right
    obtain ⟨shown, hshown⟩ := exists_read_iff.mpr
      (show ¬ z.OffCalendar (w.readOn .utc).second from hoff)
    obtain ⟨hs, hn⟩ := read_eq_ok.mp hshown
    rw [Stamp.second_readOn] at hs
    rw [Stamp.nano_readOn] at hn
    by_cases hmeets : shown.second = w.second
    · obtain rfl : shown = w := Stamp.eq_of_figures hmeets hn
      exact Or.inr ⟨_, settleFrom_of_read hshown 2 none, hshown⟩
    · have hmiss := settleFrom_of_miss hleap hshown rfl hmeets 2 none
      rw [settle, maxRounds, hmiss]
      cases hnext : (Stamp.of? (w.second - z.offsetAt w.second) w.nano : Option Instant) with
      | none => exact Or.inl (bind_eq_error.mpr (Or.inl (congrArg orOutOfCalendar hnext)))
      | some next =>
        obtain ⟨hns, hnn⟩ := Stamp.of?_eq_some_iff.mp hnext
        have hsame := hz.offsetAt_eq hend (a := next.second) (by omega)
        have hread : z.read next = .ok w := read_eq_ok.mpr ⟨by omega, hnn.symm⟩
        exact Or.inr ⟨next, bind_eq_ok.mpr ⟨next, orOutOfCalendar_eq_ok.mpr hnext,
          settleFrom_of_read hread 1 _⟩, hread⟩

/-- Near an end of the calendar an instant that shows a time has no twin. -/
theorem Calm.addTwin_near (hz : z.Calm) (hleap : ¬ w.IsLeap)
    (hend : w.second < firstSecond + 345600 ∨ lastSecond - 345600 < w.second)
    (ht : z.read t = .ok w) {n : Int} (hn : n.natAbs ≤ 12) :
    z.addTwin w (t.add? (Duration.hours n)) [t] = .ok [t] := by
  obtain ⟨hs, hnano⟩ := read_eq_ok.mp ht
  have ho := hz.within t.second
  cases hprobe : t.add? (Duration.hours n) with
  | none => rfl
  | some probe =>
    have htl : ¬ t.IsLeap := Stamp.not_isLeap_of_nano hleap hnano.symm
    have hps := ((Stamp.add?_seconds_eq_some (n := n * 3600) htl).mp hprobe).1
    have hsame := hz.offsetAt_eq hend (a := t.second) (by omega)
    have hsame' := hz.offsetAt_eq hend (a := probe.second) (by omega)
    have htwin : (w.readOn .utc).add? (Duration.seconds (-z.offsetAt probe.second)) = some t :=
      (Stamp.add?_seconds_eq_some (t := w.readOn .utc) hleap).mpr
        ⟨by rw [Stamp.second_readOn]; omega, hnano.symm⟩
    simp [addTwin, htwin, ht, bind, Except.bind, pure, Except.pure]

/-- **Near an end of the calendar a time is shown once**, if the instant is in the calendar and
the clock can be read at the first guess. -/
theorem Calm.showing_near (hz : z.Calm) (hleap : ¬ w.IsLeap)
    (hend : w.second < firstSecond + 345600 ∨ lastSecond - 345600 < w.second) :
    z.OffCalendar w.second ∧ z.showing w = .error .noReading ∨
      z.showing w = .error .outOfCalendar ∨ ∃ t, z.showing w = .ok [t] := by
  rcases hz.settle_near hleap hend with ⟨hoff, hsettle⟩ | hsettle | ⟨t, hsettle, ht⟩
  · exact Or.inl ⟨hoff, bind_eq_error.mpr (Or.inl hsettle)⟩
  · exact Or.inr (Or.inl (bind_eq_error.mpr (Or.inl hsettle)))
  · refine Or.inr (Or.inr ⟨t, bind_eq_ok.mpr ⟨.exact t, hsettle, ?_⟩⟩)
    exact bind_eq_ok.mpr ⟨[t], hz.addTwin_near hleap hend ht (n := -12) (by decide),
      hz.addTwin_near hleap hend ht (n := 12) (by decide)⟩

/-! ### Leap seconds near the ends -/

/-- About a day from a time a clock can be read, if near an end it would show a time of the calendar
under the offset in force there. -/
theorem Calm.onCalendar (hz : z.Calm) (hnear : (t.second - w.second).natAbs ≤ 86402)
    (hshown : ¬ w.Inside 96 → firstSecond ≤ t.second + z.offsetAt w.second ∧
      t.second + z.offsetAt w.second ≤ lastSecond) : ¬ z.OffCalendar t.second := by
  by_cases hin : w.Inside 96
  · obtain ⟨hf, hl⟩ := hin
    exact exists_read_iff.mp (exists_read hz.within (t := t) ⟨by omega, by omega⟩)
  · have hsame := hz.offsetAt_eq (near_end_of_not_inside hin) (a := t.second) (by omega)
    rw [OffCalendar, hsame]
    exact Classical.not_not.mpr (hshown hin)

/-- **If the clock can be read at the first guess at a leap second, it can be read at the next.** -/
theorem Calm.next_onCalendar {shown : WallTime} {guess next : Instant} (hz : z.Calm)
    (hw : w.IsLeap) (hfirst : ¬ z.OffCalendar w.second) (hguess : LeapGuess w guess)
    (hnear : (guess.second - w.second).natAbs ≤ 86402) (hread : z.read guess = .ok shown)
    (hoff : w.since shown ≠ 0) (hadd : guess.add? (w.since shown) = some next) :
    (LeapGuess w next ∧ (next.second - w.second).natAbs ≤ 86402) ∧ ¬ z.OffCalendar next.second := by
  have hguess' := hguess.next hz.within hw hread hoff hadd
  refine ⟨hguess', hz.onCalendar hguess'.2 fun hin => ?_⟩
  -- the offset stands still, so the next guess shows about the time of the leap second
  obtain ⟨second, δ, hnext, hδ, hsecond⟩ := hguess.add?_eq hw hread hoff
  have hs := (Stamp.of?_eq_some_iff.mp (hnext.symm.trans hadd)).1
  have hsame := hz.offsetAt_eq (near_end_of_not_inside hin) (a := guess.second) (by omega)
  have hf := next.first_le
  have hl := next.le_last
  unfold OffCalendar at hfirst
  omega

/-- An instant that a leap second might be shown at can be read, too. -/
theorem Calm.twin_onCalendar {twin p : Instant} (hz : z.Calm) (hw : w.IsLeap)
    (hfirst : ¬ z.OffCalendar w.second) (hp : (p.second - w.second).natAbs ≤ 172800)
    (h : (w.readOn .utc).add? (Duration.seconds (-z.offsetAt p.second)) = some twin) :
    ∃ shown, z.read twin = .ok shown := by
  rw [exists_read_iff]
  have ho := hz.within p.second
  obtain ⟨-, ⟨-, rfl⟩ | hs⟩ := leapGuess_of_twin hw h
  · exact hfirst
  · refine hz.onCalendar (w := w) (by omega) fun hin => ?_
    have hsame := hz.offsetAt_eq (near_end_of_not_inside hin) (a := p.second) (by omega)
    have hf := w.first_le
    have hl := w.le_last
    unfold OffCalendar at hfirst
    omega

/-! ### Where lookups fail -/

theorem settle_of_offCalendar (h : z.OffCalendar w.second) :
    z.settle w = .error .noReading :=
  bind_eq_error.mpr (Or.inl (read_eq_noReading (t := w.readOn .utc).mpr h))

theorem showing_of_offCalendar (h : z.OffCalendar w.second) :
    z.showing w = .error .noReading :=
  bind_eq_error.mpr (Or.inl (settle_of_offCalendar h))

/-- **Looking for the instants that show a time comes to no reading exactly if there is none at the
first guess.** -/
theorem Calm.showing_eq_noReading (hz : z.Calm) (hleap : ¬ w.IsLeap) :
    z.showing w = .error .noReading ↔ z.OffCalendar w.second := by
  refine ⟨fun h => ?_, showing_of_offCalendar⟩
  by_cases hin : w.Inside 96
  · rcases showing_spec hz.within (hin.mono (by decide)) hleap with ⟨-, ts, hts, -⟩ | ⟨t, ht, -⟩
    · rw [h] at hts
      cases hts
    · rw [h] at ht
      cases ht
  · rcases hz.showing_near hleap (near_end_of_not_inside hin) with ⟨hoff, -⟩ | hout | ⟨t, ht⟩
    · exact hoff
    · rw [h] at hout
      cases hout
    · rw [h] at ht
      cases ht

/-- **Guessing comes to no reading exactly if there is none at the first guess.** -/
theorem Calm.settle_eq_noReading (hz : z.Calm) :
    z.settle w = .error .noReading ↔ z.OffCalendar w.second := by
  refine ⟨fun h => ?_, settle_of_offCalendar⟩
  by_contra hfirst
  by_cases hleap : w.IsLeap
  · obtain ⟨t, ⟨-, hread⟩, hfail⟩ := settleFrom_eq_error
      (P := fun t => (LeapGuess w t ∧ (t.second - w.second).natAbs ≤ 86402) ∧
        ¬ z.OffCalendar t.second)
      (fun hguess hread hoff hadd =>
        hz.next_onCalendar hleap hfirst hguess.1.1 hguess.1.2 hread hoff hadd)
      maxRounds ⟨⟨Or.inl rfl, by rw [Stamp.second_readOn]; omega⟩, hfirst⟩ (by decide) h
    rcases hfail with hfail | ⟨⟨⟩, -⟩
    exact hread (read_eq_noReading.mp hfail)
  · exact hfirst ((hz.showing_eq_noReading hleap).mp (bind_eq_error.mpr (Or.inl h)))

/-- Guessing misses the time, and the time an hour later lies off the calendar. -/
def HourLaterOff (z : Zone) (w : WallTime) : Prop :=
  ∃ kept later, z.settle w = .ok (.nearest kept) ∧ w.add? (Duration.hours 1) = some later ∧
    z.OffCalendar later.second

/-- **For a leap second there is no reading either if the time an hour later is looked up and lies
off the calendar.** -/
theorem Calm.showing_leap_eq_noReading (hz : z.Calm) (hw : w.IsLeap) :
    z.showing w = .error .noReading ↔ z.OffCalendar w.second ∨ z.HourLaterOff w := by
  constructor
  · intro h
    by_cases hfirst : z.OffCalendar w.second
    · exact Or.inl hfirst
    right
    rcases bind_eq_error.mp h with h | ⟨g, hg, h⟩
    · exact absurd (hz.settle_eq_noReading.mp h) hfirst
    rcases settle_leap_cases hz.within hw hg with ⟨t, _, rfl, ⟨-, hnear⟩, -⟩ | ⟨kept, rfl, -⟩
    · -- guessing takes something for the leap second, and twins can be read
      have htwin : ∀ n : Int, n.natAbs ≤ 12 →
          z.addTwin w (t.add? (Duration.hours n)) [t] = .ok [t] := by
        intro n hn
        refine addTwin_leap hw (fun p twin hp htwin => ?_) fun hread => ?_
        · have := Stamp.near_of_add? (n := n * 3600) hp
          exact hz.twin_onCalendar hw hfirst (by omega) htwin
        · cases hg.symm.trans (settleFrom_of_read hread 2 none)
          exact List.mem_singleton.mpr rfl
      rcases bind_eq_error.mp h with h | ⟨found, hfound, h⟩
      · cases h.symm.trans (htwin (-12) (by decide))
      · cases hfound.symm.trans (htwin (-12) (by decide))
        cases h.symm.trans (htwin 12 (by decide))
    · rcases bind_eq_error.mp h with h | ⟨later, hlater, h⟩
      · cases hadd : w.add? (Duration.hours 1) <;> simp [hadd, orOutOfCalendar] at h
      · rw [orOutOfCalendar_eq_ok] at hlater
        rcases bind_eq_error.mp h with h | ⟨g, -, h⟩
        · exact ⟨kept, later, hg, hlater, hz.settle_eq_noReading.mp h⟩
        · cases g <;> cases h
  · rintro (hoff | ⟨kept, later, hsettle, hlater, hoff⟩)
    · exact showing_of_offCalendar hoff
    · exact bind_eq_error.mpr (Or.inr ⟨_, hsettle, bind_eq_error.mpr (Or.inr ⟨later,
        orOutOfCalendar_eq_ok.mpr hlater, bind_eq_error.mpr (Or.inl (settle_of_offCalendar hoff))⟩)⟩)

/-- **Where looking for the instants that show a time comes to no reading**, leap seconds
included. -/
theorem Calm.showing_eq_noReading_iff (hz : z.Calm) : z.showing w = .error .noReading ↔
    z.OffCalendar w.second ∨ w.IsLeap ∧ z.HourLaterOff w := by
  by_cases hleap : w.IsLeap
  · simpa [hleap] using hz.showing_leap_eq_noReading hleap
  · simpa [hleap] using hz.showing_eq_noReading hleap

theorem firstShowing_eq_noReading :
    z.firstShowing w = .error .noReading ↔ z.showing w = .error .noReading := by
  unfold firstShowing
  rw [bind_eq_error]
  constructor
  · rintro (h | ⟨ts, -, h⟩)
    · exact h
    · cases hhead : ts.head? <;> simp [hhead, orOutOfCalendar] at h
  · exact Or.inl

/-- **Whether a search has to set out once more cannot be told exactly if the minute of the origin
cannot be looked up.** -/
theorem Calm.otherPass?_eq_noReading (hz : z.Calm) (hleap : ¬ w.IsLeap) :
    z.otherPass? d origin w = .error .noReading ↔ z.OffCalendar w.second := by
  refine ⟨fun h => ?_, fun hoff => bind_eq_error.mpr (Or.inl (showing_of_offCalendar hoff))⟩
  by_cases hin : w.Inside 96
  · obtain ⟨o, ho, -⟩ := exists_otherPass hz.within d origin hin hleap
    rw [h] at ho
    cases ho
  · rcases hz.showing_near hleap (near_end_of_not_inside hin) with ⟨hoff, -⟩ | hout | ⟨t, ht⟩
    · exact hoff
    · simp [otherPass?, hout, bind, Except.bind] at h
    · simp [otherPass?, ht, bind, Except.bind, pure, Except.pure] at h

end Zone

end Crontab
