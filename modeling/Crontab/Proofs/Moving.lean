import Crontab.Stamp

/-! # Moving along a clock

Outside leap seconds a clock is a number line: adding whole seconds adds to the second
(`Stamp.add?_seconds`), and the time between two points is the difference of their figures
(`Stamp.since_eq`).  Only the ends of the calendar get in the way, so `Stamp.Inside` says
how many hours of it are left on either side.
-/

namespace Crontab

namespace Duration

theorem seconds_inj {a b : Int} : seconds a = seconds b ↔ a = b := by
  change a * 1000000000 = b * 1000000000 ↔ a = b
  omega

theorem seconds_eq_zero {a : Int} : seconds a = 0 ↔ a = 0 := by
  change a * 1000000000 = 0 ↔ a = 0
  omega

end Duration

namespace Stamp

variable {clock : Clock} {t u : Stamp clock}

/-- A point is settled by its figures. -/
theorem eq_of_figures (hs : t.second = u.second) (hn : t.nano = u.nano) : t = u := by
  obtain ⟨_, _, _, _, _⟩ := t
  obtain ⟨_, _, _, _, _⟩ := u
  simp only at hs hn
  subst hs
  subst hn
  rfl

theorem of?_eq_some_iff {second : Int} {nano : Nat} :
    of? second nano = some t ↔ t.second = second ∧ t.nano = nano := by
  unfold of?
  split
  · refine ⟨fun he => ?_, ?_⟩
    · cases he
      exact ⟨rfl, rfl⟩
    · rintro ⟨rfl, rfl⟩
      rfl
  · rename_i h
    refine ⟨(fun he => nomatch he), ?_⟩
    rintro ⟨rfl, rfl⟩
    exact absurd ⟨⟨t.first_le, t.le_last⟩, t.nano_lt⟩ h

theorem exists_of? (clock : Clock) {second : Int} {nano : Nat} (hf : firstSecond ≤ second)
    (hl : second ≤ lastSecond) (hn : nano < 2000000000) :
    ∃ t : Stamp clock, of? second nano = some t ∧ t.second = second ∧ t.nano = nano :=
  ⟨⟨second, nano, hf, hl, hn⟩, by rw [of?, dif_pos ⟨⟨hf, hl⟩, hn⟩], rfl, rfl⟩

/-! ### Outside leap seconds -/

theorem not_isLeap : ¬ t.IsLeap ↔ t.nano < 1000000000 := Nat.not_le

@[simp] theorem add?_zero (t : Stamp clock) : t.add? 0 = some t := by
  have hnano := t.nano_lt
  unfold add?
  split
  · rw [if_pos (show (t.nano : Int) + 0 < 2000000000 by omega)]
    exact of?_eq_some_iff.mpr ⟨rfl, show t.nano = ((t.nano : Int) + 0).toNat by omega⟩
  · rename_i hleap
    have ht : t.nano < 1000000000 :=
      not_isLeap.mp fun ht => hleap ⟨ht, show (-1000000000 : Int) < 0 by decide⟩
    refine of?_eq_some_iff.mpr ⟨?_, ?_⟩
    · change _ = (t.second * 1000000000 + (t.nano : Int) + 0) / 1000000000
      omega
    · change _ = ((t.second * 1000000000 + (t.nano : Int) + 0) % 1000000000).toNat
      omega

@[simp] theorem since_self (t : Stamp clock) : t.since t = 0 := by
  simp [since, Duration.seconds]

/-- **Adding whole seconds adds to the second.** -/
theorem add?_seconds (ht : ¬ t.IsLeap) (n : Int) :
    t.add? (Duration.seconds n) = of? (t.second + n) t.nano := by
  have hn := not_isLeap.mp ht
  rw [add?, if_neg (fun h => ht h.1), ofNanos?, nanos, Duration.seconds]
  congr 1
  · omega
  · omega

theorem add?_seconds_eq_some {a : Stamp clock} (ht : ¬ t.IsLeap) {n : Int} :
    t.add? (Duration.seconds n) = some a ↔ a.second = t.second + n ∧ a.nano = t.nano := by
  rw [add?_seconds ht]
  exact of?_eq_some_iff

/-- The time between two points is the difference of their figures. -/
theorem since_eq (ht : ¬ t.IsLeap) (hu : ¬ u.IsLeap) : t.since u = t.nanos - u.nanos := by
  have h : ¬ (u.IsLeap ∧ u.secondOfDay < t.secondOfDay) := fun h => hu h.1
  have h' : ¬ (t.IsLeap ∧ t.secondOfDay < u.secondOfDay) := fun h => ht h.1
  simp [since, h, h', Duration.seconds]

/-- Two points in like parts of a second lie whole seconds apart. -/
theorem since_seconds (ht : ¬ t.IsLeap) (h : t.nano = u.nano) :
    t.since u = Duration.seconds (t.second - u.second) := by
  have hu : ¬ u.IsLeap := by
    rw [not_isLeap, ← h]
    exact not_isLeap.mp ht
  rw [since_eq ht hu]
  change t.second * 1000000000 + t.nano - (u.second * 1000000000 + u.nano) =
    (t.second - u.second) * 1000000000
  omega

theorem not_isLeap_of_nano (ht : ¬ t.IsLeap) {other : Clock} {a : Stamp other}
    (h : a.nano = t.nano) : ¬ a.IsLeap := by
  rw [not_isLeap, h]
  exact not_isLeap.mp ht

theorem not_isLeap_of_nano_eq_zero (h : t.nano = 0) : ¬ t.IsLeap := by
  rw [not_isLeap, h]
  decide

theorem not_isLeap_startOfMinute : ¬ t.startOfMinute.IsLeap :=
  not_isLeap_of_nano_eq_zero rfl

/-! ### The ends of the calendar -/

/-- The point lies as many hours inside the years in use. -/
def Inside (t : Stamp clock) (hours : Int) : Prop :=
  firstSecond + hours * 3600 ≤ t.second ∧ t.second ≤ lastSecond - hours * 3600

instance (t : Stamp clock) (hours : Int) : Decidable (t.Inside hours) :=
  inferInstanceAs (Decidable (_ ∧ _))

theorem Inside.mono {hours fewer : Int} (h : t.Inside hours) (hle : fewer ≤ hours) :
    t.Inside fewer := by
  obtain ⟨hf, hl⟩ := h
  exact ⟨by omega, by omega⟩

end Stamp

end Crontab
