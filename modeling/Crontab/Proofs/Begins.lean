import Crontab.Proofs.Attempts
import Crontab.Proofs.Regular

/-! # The instants at which a minute begins

A minute of the calendar begins wherever the clock shows its start (`Zone.Begins`): at one
instant, at two in a fold, or at none where the clock is put forward past it
(`Zone.PassesOver`).  In a zone whose clocks are seldom changed **a minute that begins is
found at all the instants where it does** (`Zone.Regular.showing_of_begins`), and for **one that
does not begin a single instant stands in** (`Zone.Spaced.passesOver`).
-/

namespace Crontab

open Outcome

namespace Zone

variable {z : Zone} {t u x origin : Instant} {m : CivilMinute} {w : WallTime}

/-- At the instant the clock shows the start of a minute. -/
def BeginsMinute (z : Zone) (t : Instant) : Prop :=
  ∃ w, z.read t = .ok w ∧ w.startOfMinute = w

/-- At the instant the clock shows the start of the minute `m`. -/
def Begins (z : Zone) (t : Instant) (m : CivilMinute) : Prop :=
  t.nano = 0 ∧ t.second + z.offsetAt t.second = m.number * 60

/-- The clock is put forward at `turn`, past a time. -/
def Skips (z : Zone) (turn second : Int) : Prop :=
  turn + z.offsetAt (turn - 1) ≤ second ∧ second < turn + z.offsetAt turn

theorem Skips.changes {turn second : Int} (h : z.Skips turn second) : z.Changes turn := by
  unfold Skips at h
  unfold Changes
  omega

/-- The clock is put forward at `turn`, past the start of the minute `m`. -/
def PassesOver (z : Zone) (turn : Int) (m : CivilMinute) : Prop :=
  turn + z.offsetAt (turn - 1) ≤ m.number * 60 ∧ m.number * 60 < turn + z.offsetAt turn

theorem PassesOver.skips {turn : Int} (h : z.PassesOver turn m) : z.Skips turn (m.number * 60) := h

theorem PassesOver.changes {turn : Int} (h : z.PassesOver turn m) : z.Changes turn :=
  h.skips.changes

theorem begins_iff_read (hm : m.InUse) :
    z.Begins t m ↔ ∃ w, m.toWall? = some w ∧ z.read t = .ok w := by
  obtain ⟨w, hw, hs, hn, -⟩ := CivilMinute.exists_toWall? hm
  constructor
  · rintro ⟨htn, hts⟩
    exact ⟨w, hw, read_eq_ok.mpr ⟨by rw [hs, hts], by rw [hn, htn]⟩⟩
  · rintro ⟨w', hw', hread⟩
    obtain rfl : w = w' := Option.some.inj (hw.symm.trans hw')
    obtain ⟨hws, hwn⟩ := read_eq_ok.mp hread
    exact ⟨by rw [← hwn, hn], by rw [← hws, hs]⟩

/-- Within the calendar a minute begins at every second at which the clock would show it. -/
theorem exists_begins {second : Int} (hf : firstSecond ≤ second)
    (hl : second ≤ lastSecond) (hs : second + z.offsetAt second = m.number * 60) :
    ∃ t, t.second = second ∧ z.Begins t m := by
  obtain ⟨t, -, hts, htn⟩ := Stamp.exists_of? .utc hf hl (show 0 < 2000000000 by decide)
  exact ⟨t, hts, htn, by rw [hts, hs]⟩

/-- **A minute that begins is found at all the instants where it does**, in order. -/
theorem Regular.showing_of_begins (hz : z.Regular) (hm : m.InUse)
    (hf : firstSecond + 180000 ≤ m.number * 60) (hl : m.number * 60 ≤ lastSecond - 180000)
    (hw : m.toWall? = some w) (hu : z.Begins u m) :
    ∃ ts, z.showing w = .ok ts ∧ ts.Pairwise (· < ·) ∧ ∀ t, t ∈ ts ↔ z.Begins t m := by
  obtain ⟨hws, hwn, -⟩ := CivilMinute.figures_of_toWall? hw
  have hleap : ¬ w.IsLeap := Stamp.not_isLeap_of_nano_eq_zero hwn
  have hreads : ∀ v, z.Begins v m ↔ z.read v = .ok w := by
    intro v
    rw [begins_iff_read hm, hw]
    simp
  have hin : w.Inside 50 := ⟨by omega, by omega⟩
  obtain ⟨ts, hts, hasc, hmem⟩ := hz.showing_of_shown hin hleap ((hreads u).mp hu)
  exact ⟨ts, hts, hasc, fun t => (hmem t).trans (hreads t).symm⟩

/-- The instant that a search takes for a minute lies within a day and an hour of it. -/
theorem Resolves.nearby {d : Direction} {origin x : Instant} (hz : z.WithinDay)
    (h : z.Resolves d origin m (some x)) :
    x.nano = 0 ∧ (x.second - m.number * 60).natAbs ≤ 90000 := by
  obtain ⟨w, ts, hw, hts, hpick⟩ := h
  obtain ⟨hws, hwn, -⟩ := CivilMinute.figures_of_toWall? hw
  obtain ⟨hn, hs⟩ := showing_nearby hz (Stamp.not_isLeap_of_nano_eq_zero hwn) hts
    (Direction.pick_eq_some hpick).1
  exact ⟨hn.trans hwn, by omega⟩

/-- **A minute that does not begin is passed over**, and one instant stands in for it. -/
theorem Spaced.passesOver (hz : z.Spaced) (hm : m.InUse)
    (hf : firstSecond + 180000 ≤ m.number * 60) (hl : m.number * 60 ≤ lastSecond - 180000)
    (hnot : ∀ t, ¬ z.Begins t m) :
    ∃ turn, z.PassesOver turn m ∧ (turn - m.number * 60).natAbs ≤ 86400 ∧
      ∃ w t, m.toWall? = some w ∧ z.showing w = .ok [t] := by
  obtain ⟨w, hw, hws, hwn, -⟩ := CivilMinute.exists_toWall? hm
  have hleap : ¬ w.IsLeap := Stamp.not_isLeap_of_nano_eq_zero hwn
  have hnot' : ∀ t, z.read t ≠ .ok w := by
    intro t ht
    exact hnot t ((begins_iff_read hm).mpr ⟨w, hw, ht⟩)
  obtain ⟨turn, before, after, hv⟩ := hz.exists_view w.second
  have hgap := hv.gap hz.within ⟨by omega, by omega⟩ hnot'
  obtain ⟨hb, ha⟩ := hv.turns (by omega)
  have hin : w.Inside 50 := ⟨by omega, by omega⟩
  obtain ⟨t, ht⟩ := showing_of_not_shown hz.within hin hleap hnot'
  have := hv.bounds hz.within
  exact ⟨turn, ⟨by omega, by omega⟩, by omega, w, t, hw, ht⟩

end Zone

namespace Schedule

variable {s : Schedule} {z : Zone} {t : Instant}

/-- An occurrence is due at the start of an admitted minute. -/
theorem occurs_iff : z.BeginsMinute t ∧ s.isDue z t = .ok true ↔
    ∃ m : CivilMinute, (m.InUse ∧ s.admits m = true) ∧ z.Begins t m := by
  constructor
  · rintro ⟨⟨w, hw, hstart⟩, hdue⟩
    obtain ⟨w', hw', hadm⟩ := bind_eq_ok.mp hdue
    obtain rfl : w = w' := Except.ok.inj (hw.symm.trans hw')
    obtain ⟨hs, hn⟩ := Zone.read_eq_ok.mp hw
    have hws : w.second - w.second % 60 = w.second := congrArg Stamp.second hstart
    have hwn : 0 = w.nano := congrArg Stamp.nano hstart
    refine ⟨w.civil, ⟨w.civil_inUse, Except.ok.inj hadm⟩, by rw [← hn, ← hwn], ?_⟩
    rw [Stamp.number_civil, ← hs]
    omega
  · rintro ⟨m, ⟨hm, hadm⟩, ht⟩
    obtain ⟨w, hw, hread⟩ := (Zone.begins_iff_read hm).mp ht
    obtain ⟨hs, hn, hcivil⟩ := CivilMinute.figures_of_toWall? hw
    refine ⟨⟨w, hread, Stamp.eq_of_figures ?_ hn.symm⟩, bind_eq_ok.mpr ⟨w, hread, ?_⟩⟩
    · change w.second - w.second % 60 = w.second
      omega
    · rw [admitsWall, hcivil, hadm]
      rfl

end Schedule

end Crontab
