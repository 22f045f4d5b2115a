import Crontab.Proofs.Settling
import Mathlib.Algebra.Group.Int.Defs

/-! # Where halving leads

Between two instants that show the same time, the clock has been put back.  Halving the time
between them keeps the offset of the later one at the upper end and another at the lower, and
takes off half of what is left (`Zone.halve_spec`).  So **the second in which it ends is the
first with that offset after the one before** (`Zone.rewind_spec`).
-/

namespace Crontab

open Outcome

namespace Stamp

variable {clock : Clock} {t : Stamp clock}

/-- A point between two others outside leap seconds. -/
theorem exists_add?_of_between (ht : ¬ t.IsLeap) {u : Stamp clock} (hu : ¬ u.IsLeap) {n : Int}
    (hn : 0 ≤ n) (hle : t.nanos + n ≤ u.nanos) :
    ∃ m : Stamp clock, t.add? n = some m ∧ m.nanos = t.nanos + n ∧ ¬ m.IsLeap := by
  have hf := t.first_le
  have hl := u.le_last
  have := not_isLeap.mp ht
  have := not_isLeap.mp hu
  have hf' : firstSecond ≤ (t.nanos + n) / 1000000000 := by
    unfold nanos at *
    omega
  have hl' : (t.nanos + n) / 1000000000 ≤ lastSecond := by
    unfold nanos at *
    omega
  obtain ⟨m, hm, hs, hmn⟩ := exists_of? clock hf' hl'
    (show ((t.nanos + n) % 1000000000).toNat < 2000000000 by omega)
  refine ⟨m, ?_, ?_, ?_⟩
  · rw [add?, if_neg (fun h => ht h.1), ofNanos?]
    exact hm
  · rw [nanos, hs, hmn]
    omega
  · rw [not_isLeap, hmn]
    omega

end Stamp

namespace Zone

variable {z : Zone} {t low high : Instant}

/-- Where the clock can be read it is ahead by the offset in force. -/
theorem lead_of_read {w : WallTime} (hl : ¬ t.IsLeap) (hw : z.read t = .ok w) :
    z.lead t = .ok (Duration.seconds (z.offsetAt t.second)) := by
  obtain ⟨hs, hn⟩ := read_eq_ok.mp hw
  have hwl : ¬ (w.readOn .utc).IsLeap := Stamp.not_isLeap_of_nano hl hn
  have hsince : (w.readOn .utc).since t = Duration.seconds (z.offsetAt t.second) := by
    rw [Stamp.since_seconds hwl hn, Stamp.second_readOn, hs]
    congr 1
    omega
  rw [lead, hw]
  exact congrArg Except.ok hsince

/-- The clock is ahead by the offset in force. -/
theorem lead_eq (hz : z.WithinDay) (ht : t.Inside 24) (hl : ¬ t.IsLeap) :
    z.lead t = .ok (Duration.seconds (z.offsetAt t.second)) := by
  obtain ⟨w, hw⟩ := exists_read hz ht
  exact lead_of_read hl hw

/-- A span of a second or less is not halved. -/
theorem halve_narrow (target : Duration) (halvings : Nat) (hlow : ¬ low.IsLeap)
    (hhigh : ¬ high.IsLeap) (hnarrow : high.nanos - low.nanos ≤ 1000000000) :
    z.halve target halvings low high = .ok high := by
  cases halvings with
  | zero => rfl
  | succ halvings =>
    rw [halve, Stamp.since_eq hhigh hlow]
    exact if_neg (Int.not_lt.mpr hnarrow)

/-- **One halving** looks at the clock in the middle and goes on in the half that the turn is in. -/
theorem halve_wide (hlow : ¬ low.IsLeap) (hhigh : ¬ high.IsLeap)
    (hwide : 1000000000 < high.nanos - low.nanos) :
    ∃ middle : Instant, ¬ middle.IsLeap ∧
      middle.nanos = low.nanos + (high.nanos - low.nanos) / 2 ∧
      (low.second ≤ middle.second ∧ middle.second ≤ high.second) ∧
      ∀ target halvings, z.halve target (halvings + 1) low high =
        (z.lead middle >>= fun ahead =>
          if ahead = target then z.halve target halvings low middle
          else z.halve target halvings middle high) := by
  obtain ⟨middle, hmid, hnanos, hleap⟩ :=
    Stamp.exists_add?_of_between hlow hhigh (n := (high.nanos - low.nanos) / 2)
      (by omega) (by omega)
  refine ⟨middle, hleap, hnanos, ?_, fun target halvings => ?_⟩
  · have := Stamp.not_isLeap.mp hlow
    have := Stamp.not_isLeap.mp hhigh
    have := Stamp.not_isLeap.mp hleap
    unfold Stamp.nanos at *
    omega
  · rw [halve, Stamp.since_eq hhigh hlow, hmid]
    exact if_pos hwide

/-- **Halving** keeps the offset at the upper end, keeps another offset at the lower end, and
leaves a second between the two if there are halvings enough. -/
theorem halve_spec (hz : z.WithinDay) (offset : Int) (halvings : Nat) (hlow : ¬ low.IsLeap)
    (hhigh : ¬ high.IsLeap) (hlin : low.Inside 24) (hhin : high.Inside 24)
    (hle : low.nanos ≤ high.nanos) :
    ∃ low' turn : Instant, z.halve (Duration.seconds offset) halvings low high = .ok turn ∧
      (¬ low'.IsLeap ∧ ¬ turn.IsLeap) ∧
      (low.nanos ≤ low'.nanos ∧ low'.nanos ≤ turn.nanos ∧ turn.nanos ≤ high.nanos) ∧
      (high.nanos - low.nanos ≤ 2 ^ halvings → turn.nanos - low'.nanos ≤ 1000000000) ∧
      (z.offsetAt low.second ≠ offset → z.offsetAt low'.second ≠ offset) ∧
      (z.offsetAt high.second = offset → z.offsetAt turn.second = offset) := by
  induction halvings generalizing low high with
  | zero =>
    exact ⟨low, high, rfl, ⟨hlow, hhigh⟩, ⟨Int.le_refl _, hle, Int.le_refl _⟩, by omega, id, id⟩
  | succ halvings ih =>
    rcases Int.lt_or_le 1000000000 (high.nanos - low.nanos) with hwide | hnarrow
    · obtain ⟨middle, hleap, hnanos, hbetween, hhalve⟩ := halve_wide (z := z) hlow hhigh hwide
      have hmin : middle.Inside 24 := by
        unfold Stamp.Inside at *
        omega
      rw [hhalve, lead_eq hz hmin hleap]
      simp only [bind, Except.bind, Duration.seconds_inj]
      have hpow : (2 : Int) ^ (halvings + 1) = 2 ^ halvings * 2 := Int.pow_succ 2 halvings
      split
      · rename_i hsame
        obtain ⟨low', turn, heq, hleaps, hbetween, hnarrow, hl, ht⟩ :=
          ih hlow hleap hlin hmin (by omega)
        exact ⟨low', turn, heq, hleaps, by omega, by omega, hl, fun _ => ht hsame⟩
      · rename_i hother
        obtain ⟨low', turn, heq, hleaps, hbetween, hnarrow, hl, ht⟩ :=
          ih hleap hhigh hmin hhin (by omega)
        exact ⟨low', turn, heq, hleaps, by omega, by omega, fun _ => hl hother, ht⟩
    · exact ⟨low, high, halve_narrow _ _ hlow hhigh hnarrow, ⟨hlow, hhigh⟩,
        ⟨Int.le_refl _, hle, Int.le_refl _⟩, fun _ => hnarrow, id, id⟩

/-- **Rewinding ends in the first second with the later offset**, where the offsets at the two
instants differ. -/
theorem rewind_spec (hz : z.WithinDay) (hlow : ¬ low.IsLeap) (hhigh : ¬ high.IsLeap)
    (hlin : low.Inside 24) (hhin : high.Inside 24) (hlt : low < high) :
    ∃ turn, z.rewind low high = .ok turn ∧ ¬ turn.IsLeap ∧
      (low.second ≤ turn.second ∧ turn.second ≤ high.second) ∧
      (z.offsetAt low.second ≠ z.offsetAt high.second →
        z.offsetAt turn.second = z.offsetAt high.second ∧
        z.offsetAt (turn.second - 1) ≠ z.offsetAt high.second ∧ low.second < turn.second) := by
  have hll := Stamp.not_isLeap.mp hlow
  have hhl := Stamp.not_isLeap.mp hhigh
  have hle : low.nanos ≤ high.nanos := by
    rw [Stamp.lt_def] at hlt
    unfold Stamp.nanos
    omega
  obtain ⟨low', turn, heq, ⟨hleap', hleap⟩, hbetween, hnarrow, hother, hsame⟩ :=
    halve_spec hz (z.offsetAt high.second)
      (Nat.log2 (high.since low).toNat + 1) hlow hhigh hlin hhin hle
  have hwide : high.nanos - low.nanos ≤ 2 ^ (Nat.log2 (high.since low).toNat + 1) := by
    have hlog := Nat.lt_log2_self (n := (high.since low).toNat)
    have hcast : ((high.since low).toNat : Int) < 2 ^ (Nat.log2 (high.since low).toNat + 1) := by
      exact_mod_cast hlog
    rw [Stamp.since_eq hhigh hlow] at hcast ⊢
    omega
  have := hnarrow hwide
  have := Stamp.not_isLeap.mp hleap'
  have := Stamp.not_isLeap.mp hleap
  unfold Stamp.nanos at *
  refine ⟨turn, ?_, hleap, ⟨by omega, by omega⟩, fun hne => ?_⟩
  · rw [rewind, lead_eq hz hhin hhigh]
    exact heq
  · have hturn := hsame rfl
    have hlow' := hother hne
    have hsucc : low'.second = turn.second - 1 := by
      have : low'.second ≠ turn.second := fun he => hlow' (by rw [he, hturn])
      omega
    rw [← hsucc]
    exact ⟨hturn, hlow', by omega⟩

end Zone

end Crontab
