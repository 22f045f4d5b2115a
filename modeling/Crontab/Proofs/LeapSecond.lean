import Crontab.Proofs.Settling

/-! # Guessing at a leap second

Whole seconds lead out of a leap second, to its end on the way forward and to its start on the way
back (`Stamp.add?_leap`).  The time up to a leap second counts it as the second that it adds to its
day (`Stamp.since_leap`, `Stamp.since_pastLeap`), unless the other time of day is the later one.
So correcting a guess by a span of time does not keep to the leap second: **every guess but the
first lies outside leap seconds** (`Zone.LeapGuess.add?_eq`), and the first is the leap second
itself, read as universal time.

Hence guessing finds a leap second only where the clock shows universal time.  Elsewhere it misses,
or at midnight takes a second beside the leap second for it (`Zone.LeapGuess.of_since_eq_zero`).
Either way **a leap second yields one instant** (`Zone.showing_leap`), and an instant that shows it
is this one exactly if the offset in force there is zero (`Zone.showing_leap_iff`).
-/

namespace Crontab

open Outcome

namespace Stamp

variable {clock : Clock} {t u a : Stamp clock} {n : Int}

/-! ### Leap seconds on a clock -/

/-- **Whole seconds lead out of a leap second.**  On the way forward they are counted from its end,
and on the way back from its start. -/
theorem add?_leap (ht : t.IsLeap) (hn : n ≠ 0) : t.add? (Duration.seconds n) =
    of? (if 0 < n then t.second + n else t.second + n + 1) (t.nano - 1000000000) := by
  have hnano := t.nano_lt
  have hleap : 1000000000 ≤ t.nano := ht
  have hspan : Duration.seconds n = n * 1000000000 := rfl
  unfold add?
  rw [hspan]
  rcases Int.lt_or_gt_of_ne hn with hneg | hpos
  · have hback : ¬ -1000000000 < n * 1000000000 := by omega
    have hs : (t.nanos + n * 1000000000) / 1000000000 = t.second + n + 1 := by
      rw [nanos]
      omega
    have hpart : ((t.nanos + n * 1000000000) % 1000000000).toNat = t.nano - 1000000000 := by
      rw [nanos]
      omega
    rw [if_neg (fun h => hback h.2), if_neg (by omega), ofNanos?, hs, hpart]
  · have hforward : -1000000000 < n * 1000000000 := by omega
    have hpast : ¬ (t.nano : Int) + n * 1000000000 < 2000000000 := by omega
    have hs : (t.nanos + n * 1000000000 - 1000000000) / 1000000000 = t.second + n := by
      rw [nanos]
      omega
    have hpart : ((t.nanos + n * 1000000000 - 1000000000) % 1000000000).toNat =
        t.nano - 1000000000 := by
      rw [nanos]
      omega
    rw [if_pos ⟨ht, hforward⟩, if_neg hpast, if_pos hpos, ofNanos?, hs, hpart]

theorem add?_leap_eq_some (ht : t.IsLeap) (hn : n ≠ 0) :
    t.add? (Duration.seconds n) = some a ↔
      (0 < n ∧ a.second = t.second + n ∨ n < 0 ∧ a.second = t.second + n + 1) ∧
        a.nano + 1000000000 = t.nano := by
  have hleap : 1000000000 ≤ t.nano := ht
  rw [add?_leap ht hn, of?_eq_some_iff]
  split <;> omega

/-- Adding whole seconds adds to the second, but for one at most. -/
theorem near_of_add? (h : t.add? (Duration.seconds n) = some a) :
    (a.second - t.second - n).natAbs ≤ 1 := by
  by_cases ht : t.IsLeap
  · by_cases hn : n = 0
    · rw [hn, Duration.seconds, Int.zero_mul, add?_zero] at h
      cases h
      omega
    · have := (add?_leap_eq_some ht hn).mp h
      omega
  · have := (add?_seconds_eq_some ht).mp h
    omega

/-- The time between two leap seconds counts the one of the earlier time of day. -/
theorem since_leap (ht : t.IsLeap) (h : u.nano = t.nano) : ∃ δ : Int,
    t.since u = Duration.seconds (t.second - u.second + δ) ∧
      (δ = 1 ∧ u.secondOfDay < t.secondOfDay ∨ δ = 0 ∧ u.secondOfDay = t.secondOfDay ∨
        δ = -1 ∧ t.secondOfDay < u.secondOfDay) := by
  have hu : u.IsLeap := by rwa [IsLeap, h]
  refine ⟨if u.secondOfDay < t.secondOfDay then 1 else
    if t.secondOfDay < u.secondOfDay then -1 else 0, ?_, ?_⟩
  · simp only [since, hu, ht, true_and, Duration.seconds, nanos, h]
    exact show (_ : Int) = _ by omega
  · split
    · omega
    · split <;> omega

/-- The time from outside leap seconds to a leap second counts it unless its time of day is the
earlier one. -/
theorem since_pastLeap (ht : t.IsLeap) (h : u.nano + 1000000000 = t.nano) : ∃ δ : Int,
    t.since u = Duration.seconds (t.second + 1 - u.second + δ) ∧
      (δ = 0 ∧ u.secondOfDay ≤ t.secondOfDay ∨ δ = -1 ∧ t.secondOfDay < u.secondOfDay) := by
  have hnano := t.nano_lt
  have hu : ¬ u.IsLeap := not_isLeap.mpr (by omega)
  refine ⟨if t.secondOfDay < u.secondOfDay then -1 else 0, ?_, ?_⟩
  · simp only [since, hu, ht, true_and, false_and, if_false, Duration.seconds, nanos]
    exact show (_ : Int) = _ by omega
  · split <;> omega

/-- The time an hour later lies outside leap seconds. -/
theorem exists_hourLater (hl : t.second + 3600 ≤ lastSecond) : ∃ later : Stamp clock,
    t.add? (Duration.hours 1) = some later ∧ later.second = t.second + 3600 ∧ ¬ later.IsLeap ∧
      (¬ t.IsLeap → later.nano = t.nano) ∧ (t.IsLeap → later.nano + 1000000000 = t.nano) := by
  have hnano := t.nano_lt
  have hf : firstSecond ≤ t.second + 3600 := Int.le_trans t.first_le (by omega)
  by_cases ht : t.IsLeap
  · have hleap : 1000000000 ≤ t.nano := ht
    obtain ⟨later, hlater, hs, hn⟩ :=
      exists_of? clock hf hl (show t.nano - 1000000000 < 2000000000 by omega)
    refine ⟨later, (add?_leap ht (n := 3600) (by decide)).trans hlater, hs, ?_,
      fun h => absurd ht h, fun _ => by omega⟩
    exact not_isLeap.mpr (by omega)
  · obtain ⟨later, hlater, hs, hn⟩ := exists_of? clock hf hl hnano
    exact ⟨later, (add?_seconds ht 3600).trans hlater, hs, not_isLeap_of_nano ht hn,
      fun _ => hn, fun h => absurd h ht⟩

end Stamp

namespace Zone

variable {z : Zone} {w shown : WallTime} {guess t u twin : Instant} {found : List Instant}
  {probe : Option Instant} {g : Guess}

/-! ### Guesses -/

/-- **A guess at a leap second**: the leap second read as universal time, or an instant outside leap
seconds that lies as far into its second. -/
def LeapGuess (w : WallTime) (t : Instant) : Prop :=
  t = w.readOn .utc ∨ t.nano + 1000000000 = w.nano

theorem LeapGuess.eq_of_nano (h : LeapGuess w t) (hn : t.nano = w.nano) : t = w.readOn .utc :=
  h.resolve_right (by omega)

/-- **Where the guess after a guess lies**: outside leap seconds, and no more than two seconds away
from the leap second less the offset in force. -/
theorem LeapGuess.add?_eq (hw : w.IsLeap) (h : LeapGuess w guess) (hread : z.read guess = .ok shown)
    (hoff : w.since shown ≠ 0) : ∃ second δ : Int,
    guess.add? (w.since shown) = Stamp.of? second (w.nano - 1000000000) ∧ (-1 ≤ δ ∧ δ ≤ 1) ∧
      (second = w.second + δ - z.offsetAt guess.second ∧ 1 ≤ δ - z.offsetAt guess.second ∨
        second = w.second + 1 + δ - z.offsetAt guess.second ∧
          (δ ≤ 0 ∨ δ - z.offsetAt guess.second ≤ -1)) := by
  obtain ⟨hs, hn⟩ := read_eq_ok.mp hread
  rcases h with rfl | hout
  · rw [Stamp.second_readOn] at hs ⊢
    obtain ⟨δ, hsince, hδ⟩ := Stamp.since_leap hw (u := shown) hn
    rw [hsince, Ne, Duration.seconds_eq_zero] at hoff
    rw [hsince, Stamp.add?_leap (t := w.readOn .utc) hw hoff]
    refine ⟨_, δ, rfl, by omega, ?_⟩
    rw [Stamp.second_readOn]
    split <;> omega
  · obtain ⟨δ, hsince, hδ⟩ := Stamp.since_pastLeap hw (u := shown) (by omega)
    have hguess : ¬ guess.IsLeap := Stamp.not_isLeap.mpr (by have := w.nano_lt; omega)
    rw [hsince, Stamp.add?_seconds hguess]
    refine ⟨_, δ, congrArg _ (show guess.nano = w.nano - 1000000000 by omega), by omega,
      Or.inr ⟨by omega, by omega⟩⟩

/-- The guess after a guess is a guess again, within a day and two seconds. -/
theorem LeapGuess.next {next : Instant} (hz : z.WithinDay) (hw : w.IsLeap) (h : LeapGuess w guess)
    (hread : z.read guess = .ok shown) (hoff : w.since shown ≠ 0)
    (hadd : guess.add? (w.since shown) = some next) :
    LeapGuess w next ∧ (next.second - w.second).natAbs ≤ 86402 := by
  obtain ⟨second, δ, hnext, hδ, hsecond⟩ := h.add?_eq hw hread hoff
  obtain ⟨hs, hn⟩ := Stamp.of?_eq_some_iff.mp (hnext.symm.trans hadd)
  have hleap : 1000000000 ≤ w.nano := hw
  have := hz guess.second
  exact ⟨Or.inr (by omega), by omega⟩

/-- **What guessing at a leap second takes for it**: the leap second, or at midnight the second
after it or before it. -/
theorem LeapGuess.of_since_eq_zero (hw : w.IsLeap) (h : LeapGuess w t)
    (hread : z.read t = .ok shown) (hzero : w.since shown = 0) :
    t = w.readOn .utc ∧ shown = w ∨
      shown.second = w.second + 1 ∧ w.secondOfDay = 86399 ∨
      t = w.readOn .utc ∧ shown.second = w.second - 1 ∧ w.secondOfDay = 0 := by
  obtain ⟨-, hn⟩ := read_eq_ok.mp hread
  rcases h with rfl | hout
  · obtain ⟨δ, hsince, hδ⟩ := Stamp.since_leap hw (u := shown) hn
    rw [hsince, Duration.seconds_eq_zero] at hzero
    unfold Stamp.secondOfDay at *
    rcases hδ with ⟨rfl, hlt⟩ | ⟨rfl, -⟩ | ⟨rfl, hlt⟩
    · exact Or.inr (Or.inl (by omega))
    · exact Or.inl ⟨rfl, Stamp.eq_of_figures (by omega) hn⟩
    · exact Or.inr (Or.inr ⟨rfl, by omega⟩)
  · obtain ⟨δ, hsince, hδ⟩ := Stamp.since_pastLeap hw (u := shown) (by omega)
    rw [hsince, Duration.seconds_eq_zero] at hzero
    unfold Stamp.secondOfDay at *
    omega

/-! ### Where guessing ends -/

/-- Guessing at a leap second ends with a guess at it, within a day and two seconds. -/
theorem settle_leap_cases (hz : z.WithinDay) (hw : w.IsLeap) (h : z.settle w = .ok g) :
    (∃ t shown, g = .exact t ∧ (LeapGuess w t ∧ (t.second - w.second).natAbs ≤ 86402) ∧
      z.read t = .ok shown ∧ w.since shown = 0) ∨
    ∃ t, g = .nearest t ∧ LeapGuess w t ∧ (t.second - w.second).natAbs ≤ 86402 :=
  settleFrom_keeps (P := fun t => LeapGuess w t ∧ (t.second - w.second).natAbs ≤ 86402)
    (fun hguess hread hoff hadd => hguess.1.next hz hw hread hoff hadd) maxRounds
    ⟨Or.inl rfl, by rw [Stamp.second_readOn]; omega⟩ (by simp) h

/-- Guessing at a leap second never fails away from the ends of the calendar. -/
theorem exists_settle_leap (hz : z.WithinDay) (hin : w.Inside 50) (hw : w.IsLeap) :
    ∃ g, z.settle w = .ok g := by
  obtain ⟨hf, hl⟩ := hin
  cases hsettle : z.settle w with
  | ok g => exact ⟨g, rfl⟩
  | error e =>
    obtain ⟨t, ⟨hguess, hnear⟩, hfail⟩ := settleFrom_eq_error
      (P := fun t => LeapGuess w t ∧ (t.second - w.second).natAbs ≤ 86402)
      (fun hguess hread hoff hadd => hguess.1.next hz hw hread hoff hadd) maxRounds
      ⟨Or.inl rfl, by rw [Stamp.second_readOn]; omega⟩ (by decide) hsettle
    rcases hfail with hfail | ⟨-, shown, hread, hnone⟩
    · obtain ⟨shown, hread⟩ := exists_read hz (t := t) ⟨by omega, by omega⟩
      cases hread.symm.trans hfail
    · have hoff : w.since shown ≠ 0 := by
        intro hoff
        rw [hoff, Stamp.add?_zero] at hnone
        cases hnone
      obtain ⟨second, δ, hadd, hδ, hsecond⟩ := hguess.add?_eq hw hread hoff
      have ho := hz t.second
      have hnano := w.nano_lt
      have hf' : firstSecond ≤ second := by omega
      have hl' : second ≤ lastSecond := by omega
      obtain ⟨next, hnext, -⟩ :=
        Stamp.exists_of? .utc hf' hl' (show w.nano - 1000000000 < 2000000000 by omega)
      cases (hadd.trans hnext).symm.trans hnone

/-! ### What a leap second yields -/

/-- The other instant that a leap second might be shown at is a guess at it. -/
theorem leapGuess_of_twin (hw : w.IsLeap) {offset : Int}
    (h : (w.readOn .utc).add? (Duration.seconds (-offset)) = some twin) :
    LeapGuess w twin ∧ (offset = 0 ∧ twin = w.readOn .utc ∨
      0 < offset ∧ twin.second = w.second + 1 - offset ∨
      offset < 0 ∧ twin.second = w.second - offset) := by
  by_cases hzero : offset = 0
  · rw [hzero, Int.neg_zero, Duration.seconds, Int.zero_mul, Stamp.add?_zero] at h
    cases h
    exact ⟨Or.inl rfl, Or.inl ⟨hzero, rfl⟩⟩
  · obtain ⟨hs, hn⟩ := (Stamp.add?_leap_eq_some (t := w.readOn .utc) hw (by omega)).mp h
    rw [Stamp.second_readOn] at hs
    exact ⟨Or.inr hn, Or.inr (by omega)⟩

/-- **A leap second has no twin.** -/
theorem addTwin_leap (hw : w.IsLeap)
    (hread : ∀ p twin, probe = some p →
      (w.readOn .utc).add? (Duration.seconds (-z.offsetAt p.second)) = some twin →
      ∃ shown, z.read twin = .ok shown)
    (hfound : z.read (w.readOn .utc) = .ok w → w.readOn .utc ∈ found) :
    z.addTwin w probe found = .ok found := by
  unfold addTwin
  cases probe with
  | none => rfl
  | some p =>
    rw [Option.bind_some]
    cases htwin : (w.readOn .utc).add? (Duration.seconds (-z.offsetAt p.second)) with
    | none => rfl
    | some twin =>
      obtain ⟨shown, hshown⟩ := hread p twin rfl htwin
      have hold : ¬ (shown = w ∧ twin ∉ found) := by
        rintro ⟨rfl, hnew⟩
        obtain rfl := (leapGuess_of_twin hw htwin).1.eq_of_nano (read_eq_ok.mp hshown).2.symm
        exact hnew (hfound hshown)
      simp [hshown, hold, bind, Except.bind, pure, Except.pure]

theorem showing_of_exact_leap (hz : z.WithinDay) (hin : w.Inside 50) (hw : w.IsLeap)
    (h : z.settle w = .ok (.exact t)) (ht : z.read (w.readOn .utc) = .ok w → t = w.readOn .utc) :
    z.showing w = .ok [t] := by
  obtain ⟨hf, hl⟩ := hin
  have htwin : ∀ probe, z.addTwin w probe [t] = .ok [t] := fun probe => by
    refine addTwin_leap hw (fun p twin _ htwin => ?_) fun hread => by simp [ht hread]
    have hnear := Stamp.near_of_add? htwin
    rw [Stamp.second_readOn] at hnear
    have ho := hz p.second
    exact exists_read hz ⟨by omega, by omega⟩
  exact bind_eq_ok.mpr ⟨.exact t, h, bind_eq_ok.mpr ⟨[t], htwin _, htwin _⟩⟩

theorem settle_leap_of_zero (h : z.offsetAt w.second = 0) :
    z.settle w = .ok (.exact (w.readOn .utc)) ∧ z.read (w.readOn .utc) = .ok w := by
  have hread : z.read (w.readOn .utc) = .ok w :=
    read_eq_ok.mpr ⟨by rw [Stamp.second_readOn, h, Int.add_zero], rfl⟩
  exact ⟨settleFrom_of_read hread 2 none, hread⟩

/-- **A leap second yields one instant**, which is a guess at it. -/
theorem showing_leap (hz : z.WithinDay) (hin : w.Inside 50) (hw : w.IsLeap) :
    ∃ t, z.showing w = .ok [t] ∧ LeapGuess w t ∧ (z.offsetAt w.second = 0 → t = w.readOn .utc) := by
  by_cases hzero : z.offsetAt w.second = 0
  · obtain ⟨hsettle, -⟩ := settle_leap_of_zero hzero
    exact ⟨_, showing_of_exact_leap hz hin hw hsettle fun _ => rfl, Or.inl rfl, fun _ => rfl⟩
  have hnot : z.read (w.readOn .utc) ≠ .ok w := fun hread => hzero <| by
    have := (read_eq_ok.mp hread).1
    rw [Stamp.second_readOn] at this
    omega
  obtain ⟨g, hg⟩ := exists_settle_leap hz hin hw
  rcases settle_leap_cases hz hw hg with ⟨t, shown, rfl, ⟨hguess, -⟩, -⟩ | ⟨kept, rfl, hkept, -⟩
  · exact ⟨t, showing_of_exact_leap hz hin hw hg (absurd · hnot), hguess, (absurd · hzero)⟩
  · obtain ⟨hf, hl⟩ := hin
    obtain ⟨later, hlater, hls, hleap, -, hln⟩ :=
      Stamp.exists_hourLater (t := w) (by omega)
    have hin' : later.Inside 48 := ⟨by omega, by omega⟩
    rcases settle_spec hz hin' hleap with ⟨t, ht, hread⟩ | ⟨t, ht, -⟩
    · refine ⟨t, ?_, Or.inr ((read_eq_ok.mp hread).2 ▸ hln hw), (absurd · hzero)⟩
      simp [showing, hg, hlater, ht, orOutOfCalendar, bind, Except.bind, pure, Except.pure]
    · refine ⟨kept, ?_, hkept, (absurd · hzero)⟩
      simp [showing, hg, hlater, ht, orOutOfCalendar, bind, Except.bind, pure, Except.pure]

/-- **An instant that shows a leap second is the one that it yields exactly where the clock shows
universal time.** -/
theorem showing_leap_iff (hz : z.WithinDay) (hin : w.Inside 50) (hw : w.IsLeap)
    (hu : z.read u = .ok w) :
    ∃ t, z.showing w = .ok [t] ∧ (t = u ↔ z.offsetAt u.second = 0) := by
  obtain ⟨t, ht, hguess, hzero⟩ := showing_leap hz hin hw
  obtain ⟨hs, hn⟩ := read_eq_ok.mp hu
  refine ⟨t, ht, ?_, fun ho => ?_⟩
  · rintro rfl
    rw [hguess.eq_of_nano hn.symm, Stamp.second_readOn] at hs ⊢
    omega
  · have hsame : u.second = w.second := by omega
    rw [hzero (hsame ▸ ho)]
    exact Stamp.eq_of_figures hsame.symm hn

end Zone

end Crontab
