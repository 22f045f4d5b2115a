import Crontab.Proofs.Journey
import Mathlib.Data.Nat.Factorization.Basic
import Mathlib.Tactic.Linarith
import Mathlib.Tactic.Ring

/-! # How exactly halving finds a turn

Between two instants that show one time the clock is put back, and `Zone.rewind` looks for where by
halving the span between them until it is no more than a second.  The ends of the spans are counted
in nanoseconds, so the search is one for a point among integers (`upperEnd`,
`Zone.TurnsOnce.nanos_of_rewind`).

It ends in the second of the turn (`upperEnd_bounds`), for the turn comes at the start of a second.
That the end *is* the turn takes more.  Halving comes only to ends of `2 ^ depth` equal parts of the
span, but for what is lost in rounding (`NearPart`), and after the few halvings that a span of hours
allows the loss is far less than a second (`exists_nearPart`).  So the turn is found only if it is
the end of such a part, and then it is found, because the halvings down to it lose nothing
(`upperEnd_of_grid`).  Both together are `upperEnd_eq_iff`: **halving finds the turn exactly if the
turn is a binary fraction of the way along the span**.  In a fold of an hour that is so for every
fifteenth minute.
-/

namespace Crontab

open Outcome

/-! ### Halving a span -/

section Span

/-- The upper end of a span that is halved around a point until it is no more than a second. -/
def upperEnd (point : Int) : (halvings : Nat) → (low high : Int) → Int
  | 0, _, high => high
  | halvings + 1, low, high =>
    if 1000000000 < high - low then
      let middle := low + (high - low) / 2
      if point ≤ middle then upperEnd point halvings low middle
      else upperEnd point halvings middle high
    else high

variable {point low high width origin step : Int} {halvings depth : Nat}

/-- Halving ends less than a second past the point, if there are halvings enough. -/
theorem upperEnd_bounds (hlow : low < point) (hhigh : point ≤ high)
    (henough : high - low ≤ 2 ^ halvings) :
    point ≤ upperEnd point halvings low high ∧
      upperEnd point halvings low high < point + 1000000000 := by
  induction halvings generalizing low high with
  | zero =>
    rw [upperEnd]
    omega
  | succ halvings ih =>
    have hpow : (2 : Int) ^ (halvings + 1) = 2 ^ halvings * 2 := Int.pow_succ 2 halvings
    rw [upperEnd]
    extract_lets middle
    split
    · split
      · exact ih hlow (by omega) (by omega)
      · exact ih (by omega) hhigh (by omega)
    · omega

/-- A point at the upper end is never left. -/
theorem upperEnd_of_high (hlow : low < high) : upperEnd high halvings low high = high := by
  induction halvings generalizing low with
  | zero => rfl
  | succ halvings ih =>
    rw [upperEnd]
    extract_lets middle
    split
    · rw [if_neg (by omega)]
      exact ih (by omega)
    · rfl

/-- **A point that halving comes to is found.**  The span is a power of two of steps, of a second or
more each, and the point lies a number of them from its lower end. -/
theorem upperEnd_of_grid (low : Int) (hstep : 1000000000 ≤ step) {count : Int} (hpos : 0 < count)
    (hcount : count ≤ 2 ^ depth) (hdepth : depth ≤ halvings) :
    upperEnd (low + count * step) halvings low (low + 2 ^ depth * step) = low + count * step := by
  induction depth generalizing low count halvings with
  | zero =>
    obtain rfl : count = 1 := by omega
    exact upperEnd_of_high (by omega)
  | succ depth ih =>
    obtain ⟨halvings, rfl⟩ := Nat.exists_eq_succ_of_ne_zero (show halvings ≠ 0 by omega)
    have hpow : (0 : Int) < 2 ^ depth := Int.pow_pos (by decide)
    have hdouble : (2 : Int) ^ (depth + 1) = 2 * 2 ^ depth := Int.pow_succ' 2 depth
    have hhalf : step ≤ 2 ^ depth * step := by nlinarith
    have hmiddle : low + (low + 2 ^ (depth + 1) * step - low) / 2 = low + 2 ^ depth * step := by
      rw [hdouble, Int.mul_assoc]
      omega
    rw [upperEnd, if_pos (by rw [hdouble, Int.mul_assoc]; omega)]
    dsimp only
    rw [hmiddle]
    split
    · rename_i hleft
      refine ih low hpos ?_ (by omega)
      exact Int.le_of_mul_le_mul_right (Int.le_of_add_le_add_left hleft) (by omega)
    · rename_i hright
      have hmore : 2 ^ depth < count := by
        refine Int.lt_of_mul_lt_mul_right (a := step) ?_ (by omega)
        omega
      have hpoint : low + 2 ^ depth * step + (count - 2 ^ depth) * step = low + count * step := by
        ring
      have hend : low + 2 ^ depth * step + 2 ^ depth * step = low + 2 ^ (depth + 1) * step := by
        rw [hdouble]
        ring
      rw [← hpoint, ← hend]
      exact ih (low + 2 ^ depth * step) (by omega) (by omega) (by omega)

/-- The point is, from `origin` on, the end of the first `part` of `2 ^ depth` equal parts of a
width, but for less than a nanosecond lost at each halving. -/
def NearPart (origin width : Int) (depth : Nat) (part point : Int) : Prop :=
  2 ^ depth * (point - origin) ≤ part * width ∧
    part * width ≤ 2 ^ depth * (point - origin + depth)

variable {part : Int}

/-- Halving loses less than a nanosecond. -/
theorem NearPart.middle (hlow : NearPart origin width depth part low)
    (hhigh : NearPart origin width depth (part + 1) high) :
    NearPart origin width (depth + 1) (2 * part + 1) (low + (high - low) / 2) := by
  have hpow : (0 : Int) ≤ 2 ^ depth := Int.le_of_lt (Int.pow_pos (by decide))
  have hmiddle : low + high - 1 ≤ 2 * (low + (high - low) / 2) ∧
      2 * (low + (high - low) / 2) ≤ low + high := by omega
  generalize low + (high - low) / 2 = middle at *
  have hbelow := Int.mul_le_mul_of_nonneg_left hmiddle.1 hpow
  have habove := Int.mul_le_mul_of_nonneg_left hmiddle.2 hpow
  obtain ⟨hlow, hlow'⟩ := hlow
  obtain ⟨hhigh, hhigh'⟩ := hhigh
  rw [NearPart, Int.pow_succ]
  push_cast
  constructor <;> linarith

/-- A point near the end of a part is near the end of two parts of half the size. -/
theorem NearPart.succ (h : NearPart origin width depth part point) :
    NearPart origin width (depth + 1) (2 * part) point := by
  have hpow : (0 : Int) ≤ 2 ^ depth := Int.le_of_lt (Int.pow_pos (by decide))
  obtain ⟨hle, hge⟩ := h
  rw [NearPart, Int.pow_succ]
  push_cast
  constructor <;> linarith

/-- **Halving ends near one of the equal parts** of the span that it sets out from, after eighteen
halvings at most if the span is less than two days. -/
theorem exists_nearPart (point : Int) (halvings : Nat) (hwidth : width < 172800 * 1000000000)
    (hdepth : depth ≤ 18) (hlow : NearPart origin width depth part low)
    (hhigh : NearPart origin width depth (part + 1) high) :
    ∃ depth' ≤ 18, ∃ part',
      NearPart origin width depth' part' (upperEnd point halvings low high) := by
  induction halvings generalizing low high depth part with
  | zero => exact ⟨depth, hdepth, part + 1, hhigh⟩
  | succ halvings ih =>
    rw [upperEnd]
    extract_lets middle
    split
    · rename_i hwide
      -- eighteen halvings leave less than a second of two days
      have hless : depth + 1 ≤ 18 := by
        by_contra hdeep
        obtain rfl : depth = 18 := by omega
        have := hlow.2
        have := hhigh.1
        norm_num at *
        linarith
      have hmiddle := hlow.middle hhigh
      have hhigh' := hhigh.succ
      rw [show 2 * (part + 1) = 2 * part + 1 + 1 by ring] at hhigh'
      split
      · exact ih hless hlow.succ hmiddle
      · exact ih hless hmiddle hhigh'
    · exact ⟨depth, hdepth, part + 1, hhigh⟩

/-- The end of a second that halving comes to exactly is a binary fraction of the way along a span of
whole seconds. -/
theorem exists_dvd_of_upperEnd {low length far : Int} (hshort : length < 172800)
    (hend : upperEnd (low + far * 1000000000) halvings low (low + length * 1000000000) =
      low + far * 1000000000) : ∃ k : Nat, length ∣ far * 2 ^ k := by
  have hlow : NearPart low (length * 1000000000) 0 0 low := ⟨by omega, by omega⟩
  have hhigh : NearPart low (length * 1000000000) 0 (0 + 1) (low + length * 1000000000) :=
    ⟨by omega, by omega⟩
  obtain ⟨depth, hdepth, part, hnear, hnear'⟩ := exists_nearPart (low + far * 1000000000)
    halvings (by omega) (by decide) hlow hhigh
  have hpow : (2 : Int) ^ depth ≤ 2 ^ 18 := pow_le_pow_right₀ (by decide) hdepth
  have hlost : (2 : Int) ^ depth * depth ≤ 2 ^ 18 * 18 :=
    Int.mul_le_mul hpow (by exact_mod_cast hdepth) (by omega) (by decide)
  rw [hend, add_sub_cancel_left] at hnear hnear'
  -- what is lost is less than a second, and both sides are whole seconds
  have heq : 2 ^ depth * far = part * length := by
    norm_num at hlost
    have : 1000000000 * (2 ^ depth * far) ≤ 1000000000 * (part * length) := by linarith
    have : 1000000000 * (part * length) < 1000000000 * (2 ^ depth * far) + 1000000000 := by
      linarith
    omega
  exact ⟨depth, part, by linarith⟩

/-- Halving comes exactly to the end of a second that is a binary fraction of the way along. -/
theorem upperEnd_of_dvd (low : Int) {length far : Nat} {k : Nat} (hpos : 0 < far)
    (hle : far ≤ length) (henough : (length : Int) * 1000000000 ≤ 2 ^ halvings)
    (hdvd : length ∣ far * 2 ^ k) :
    upperEnd (low + far * 1000000000) halvings low (low + length * 1000000000) =
      low + far * 1000000000 := by
  obtain ⟨depth, odd, hodd, rfl⟩ := Nat.exists_eq_two_pow_mul_odd (show length ≠ 0 by omega)
  -- twos apart, the steps are as many seconds as the odd part of the span
  obtain ⟨count, rfl⟩ : odd ∣ far := by
    refine Nat.Coprime.dvd_of_dvd_mul_right (Nat.Coprime.pow_right k ?_)
      ((Nat.dvd_mul_left odd _).trans hdvd)
    exact hodd.coprime_two_right
  have hodd0 : 0 < odd := hodd.pos
  have hcount : 0 < count := Nat.pos_of_mul_pos_left hpos
  have hcount' : count ≤ 2 ^ depth := by
    refine Nat.le_of_mul_le_mul_left ?_ hodd0
    rwa [Nat.mul_comm odd (2 ^ depth)]
  push_cast at henough
  have hdepth : depth ≤ halvings := by
    have hpow : (0 : Int) < 2 ^ depth := Int.pow_pos (by decide)
    have hle : (2 : Int) ^ depth ≤ 2 ^ halvings := by nlinarith
    exact (pow_le_pow_iff_right₀ (by decide)).mp hle
  have hgrid := upperEnd_of_grid low (show 1000000000 ≤ (odd : Int) * 1000000000 by omega)
    (show 0 < (count : Int) by exact_mod_cast hcount)
    (show (count : Int) ≤ 2 ^ depth by exact_mod_cast hcount') hdepth
  push_cast
  rwa [show (odd : Int) * count * 1000000000 = count * (odd * 1000000000) by ring,
    show (2 : Int) ^ depth * odd * 1000000000 = 2 ^ depth * (odd * 1000000000) by ring]

/-- **When halving comes to a point exactly.**  A span of whole seconds, shorter than two days, is
halved around the end of one of its seconds.  Halving ends there if and only if it is a binary
fraction of the way along the span. -/
theorem upperEnd_eq_iff (low : Int) {length far : Int} (hpos : 0 < far) (hle : far ≤ length)
    (hshort : length < 172800) (henough : length * 1000000000 ≤ 2 ^ halvings) :
    upperEnd (low + far * 1000000000) halvings low (low + length * 1000000000) =
        low + far * 1000000000 ↔
      ∃ k : Nat, length ∣ far * 2 ^ k := by
  refine ⟨exists_dvd_of_upperEnd hshort, ?_⟩
  rintro ⟨k, hdvd⟩
  obtain ⟨length, rfl⟩ := Int.eq_ofNat_of_zero_le (show 0 ≤ length by omega)
  obtain ⟨far, rfl⟩ := Int.eq_ofNat_of_zero_le (Int.le_of_lt hpos)
  exact upperEnd_of_dvd low (by omega) (by omega) henough (by exact_mod_cast hdvd)

end Span

namespace Zone

variable {z : Zone} {earlier later low high t : Instant} {turn offset u : Int}

/-! ### Halving down to a turn -/

/-- **The two instants show one time, at the start of a minute, and the clock is changed once
between them**, at `turn`. -/
structure TurnsOnce (z : Zone) (earlier later : Instant) (turn : Int) : Prop where
  shown : ∃ w : WallTime, w.OnMinute ∧ z.read earlier = .ok w ∧ z.read later = .ok w
  between : earlier.second < turn ∧ turn ≤ later.second
  changes_iff : ∀ v, earlier.second < v → v ≤ later.second → (z.Changes v ↔ v = turn)

namespace TurnsOnce

theorem nano_eq (h : z.TurnsOnce earlier later turn) : earlier.nano = 0 ∧ later.nano = 0 := by
  obtain ⟨w, hw, hearlier, hlater⟩ := h.shown
  have hn : 0 = w.nano := congrArg Stamp.nano hw
  exact ⟨by rw [hn, (read_eq_ok.mp hearlier).2], by rw [hn, (read_eq_ok.mp hlater).2]⟩

/-- Until the turn the offset is that of the earlier instant. -/
theorem offsetAt_before (h : z.TurnsOnce earlier later turn) (hlow : earlier.second ≤ u)
    (hu : u < turn) : z.offsetAt u = z.offsetAt earlier.second := by
  refine offsetAt_eq_of_steady hlow fun v hv hle hc => ?_
  have := h.between
  have := (h.changes_iff v hv (by omega)).mp hc
  omega

/-- From the turn on it is that of the later instant. -/
theorem offsetAt_after (h : z.TurnsOnce earlier later turn) (hu : turn ≤ u)
    (hhigh : u ≤ later.second) : z.offsetAt u = z.offsetAt later.second := by
  refine (offsetAt_eq_of_steady hhigh fun v hv hle hc => ?_).symm
  have := h.between
  have := (h.changes_iff v (by omega) hle).mp hc
  omega

/-- **The offset of the later instant is in force exactly from the turn on.** -/
theorem offsetAt_eq_iff (h : z.TurnsOnce earlier later turn) (hlow : earlier.second ≤ u)
    (hhigh : u ≤ later.second) : z.offsetAt u = z.offsetAt later.second ↔ turn ≤ u := by
  refine ⟨fun heq => ?_, fun hle => h.offsetAt_after hle hhigh⟩
  by_contra hlt
  have hbetween := h.between
  have hchanges := (h.changes_iff turn hbetween.1 hbetween.2).mpr rfl
  rw [Changes, h.offsetAt_before (by omega) (Int.sub_one_lt_of_le (Int.le_refl turn)),
    h.offsetAt_after (Int.le_refl turn) hbetween.2, ← h.offsetAt_before hlow (by omega)] at hchanges
  exact hchanges heq

end TurnsOnce

/-- On clocks that are seldom changed, a turn between two instants that show one time is the only
one. -/
theorem Spaced.turnsOnce (hz : z.Spaced) {w : WallTime} (hw : w.OnMinute)
    (hearlier : z.read earlier = .ok w) (hlater : z.read later = .ok w) (hc : z.Changes turn)
    (hbetween : earlier.second < turn ∧ turn ≤ later.second) : z.TurnsOnce earlier later turn := by
  have hes := (read_eq_ok.mp hearlier).1
  have hls := (read_eq_ok.mp hlater).1
  have := hz.within earlier.second
  have := hz.within later.second
  refine ⟨⟨w, hw, hearlier, hlater⟩, hbetween, fun v hv hle => ⟨fun hc' => ?_, ?_⟩⟩
  · exact hz.eq_of_near hc' hc (by omega)
  · rintro rfl
    exact hc

/-- Where the clock can be read, halving finds an instant. -/
theorem exists_halve (target : Duration) (halvings : Nat) (hlow : ¬ low.IsLeap)
    (hhigh : ¬ high.IsLeap) (hread : ∀ t : Instant, low.second ≤ t.second →
      t.second ≤ high.second → ∃ w, z.read t = .ok w) :
    ∃ t, z.halve target halvings low high = .ok t := by
  induction halvings generalizing low high with
  | zero => exact ⟨high, rfl⟩
  | succ halvings ih =>
    rcases Int.lt_or_le 1000000000 (high.nanos - low.nanos) with hwide | hnarrow
    · obtain ⟨middle, hleap, -, ⟨hlo, hhi⟩, hhalve⟩ := halve_wide (z := z) hlow hhigh hwide
      obtain ⟨w, hw⟩ := hread middle hlo hhi
      rw [hhalve, lead_of_read hleap hw]
      simp only [bind, Except.bind]
      split
      · exact ih hlow hleap fun t hl hm => hread t hl (Int.le_trans hm hhi)
      · exact ih hleap hhigh fun t hm hh => hread t (Int.le_trans hlo hm) hh
    · exact ⟨high, halve_narrow _ _ hlow hhigh hnarrow⟩

/-- **Halving the time between instants halves the span of nanoseconds**, if the clock is ahead by
the offset that is looked for exactly from the turn on. -/
theorem nanos_of_halve {halvings : Nat} (hlow : ¬ low.IsLeap) (hhigh : ¬ high.IsLeap)
    (hturn : ∀ u, low.second ≤ u → u ≤ high.second → (z.offsetAt u = offset ↔ turn ≤ u))
    (h : z.halve (Duration.seconds offset) halvings low high = .ok t) :
    ¬ t.IsLeap ∧ t.nanos = upperEnd (turn * 1000000000) halvings low.nanos high.nanos := by
  induction halvings generalizing low high with
  | zero =>
    cases h
    exact ⟨hhigh, rfl⟩
  | succ halvings ih =>
    rw [upperEnd]
    rcases Int.lt_or_le 1000000000 (high.nanos - low.nanos) with hwide | hnarrow
    · obtain ⟨middle, hleap, hnanos, ⟨hlo, hhi⟩, hhalve⟩ := halve_wide (z := z) hlow hhigh hwide
      rw [hhalve] at h
      obtain ⟨ahead, hahead, h⟩ := bind_eq_ok.mp h
      obtain ⟨w, hw, -⟩ := bind_eq_ok.mp hahead
      obtain rfl := Except.ok.inj ((lead_of_read hleap hw).symm.trans hahead)
      rw [if_pos hwide, ← hnanos]
      have hpast : turn * 1000000000 ≤ middle.nanos ↔ turn ≤ middle.second := by
        have := Stamp.not_isLeap.mp hleap
        unfold Stamp.nanos
        omega
      simp only [Duration.seconds_inj, hturn middle.second hlo hhi] at h
      simp only [hpast]
      split at h
      · rename_i hleft
        rw [if_pos hleft]
        exact ih hlow hleap (fun u hl hm => hturn u hl (Int.le_trans hm hhi)) h
      · rename_i hright
        rw [if_neg hright]
        exact ih hleap hhigh (fun u hm hh => hturn u (Int.le_trans hlo hm) hh) h
    · rw [halve_narrow _ _ hlow hhigh hnarrow] at h
      cases h
      exact ⟨hhigh, (if_neg (Int.not_lt.mpr hnarrow)).symm⟩

/-- **Rewinding halves the span between the two instants around the turn.** -/
theorem TurnsOnce.nanos_of_rewind (h : z.TurnsOnce earlier later turn)
    (ht : z.rewind earlier later = .ok t) :
    ¬ t.IsLeap ∧ ∃ halvings, (later.second - earlier.second) * 1000000000 ≤ 2 ^ halvings ∧
      t.nanos = upperEnd (turn * 1000000000) halvings (earlier.second * 1000000000)
        (later.second * 1000000000) := by
  obtain ⟨w, -, hearlier, hlater⟩ := h.shown
  obtain ⟨hen, hln⟩ := h.nano_eq
  have hel : ¬ earlier.IsLeap := Stamp.not_isLeap_of_nano_eq_zero hen
  have hll : ¬ later.IsLeap := Stamp.not_isLeap_of_nano_eq_zero hln
  have hespan : earlier.nanos = earlier.second * 1000000000 := by
    simp [Stamp.nanos, hen]
  have hlspan : later.nanos = later.second * 1000000000 := by
    simp [Stamp.nanos, hln]
  rw [rewind, lead_of_read hll hlater] at ht
  obtain ⟨hleap, hnanos⟩ := nanos_of_halve hel hll
    (fun u hlow hhigh => h.offsetAt_eq_iff hlow hhigh) ht
  refine ⟨hleap, _, ?_, by rw [hnanos, hespan, hlspan]⟩
  have hlog := Nat.lt_log2_self (n := (later.since earlier).toNat)
  have hcast : ((later.since earlier).toNat : Int) <
      2 ^ (Nat.log2 (later.since earlier).toNat + 1) := by exact_mod_cast hlog
  rw [Stamp.since_eq hll hel] at hcast ⊢
  omega

/-- **Rewinding ends in the second of the turn.** -/
theorem TurnsOnce.second_of_rewind (h : z.TurnsOnce earlier later turn)
    (ht : z.rewind earlier later = .ok t) : t.second = turn := by
  obtain ⟨hleap, halvings, henough, hnanos⟩ := h.nanos_of_rewind ht
  have hbetween := h.between
  have hbounds := upperEnd_bounds (show earlier.second * 1000000000 < turn * 1000000000 by omega)
    (show turn * 1000000000 ≤ later.second * 1000000000 by omega)
    (show _ ≤ (2 : Int) ^ halvings by omega)
  rw [← hnanos] at hbounds
  have := Stamp.not_isLeap.mp hleap
  unfold Stamp.nanos at hbounds
  omega

/-- **How exactly rewinding finds a turn.**  The clock shows the start of a minute at `earlier` and
again at `later`, it is changed once between them, at `turn`, and it can be read all the while.  Then
from `turn` on it is on the offset of `later` and before it is not.  Rewinding ends in the second of
the turn, but at its very start if and only if the turn lies a binary fraction of the way from
`earlier` to `later`. -/
theorem rewind_exact_iff (hz : z.WithinDay) (h : z.TurnsOnce earlier later turn)
    (hread : ∀ t : Instant, earlier.second ≤ t.second → t.second ≤ later.second →
      ∃ w, z.read t = .ok w) :
    (∀ u, earlier.second < u → u ≤ later.second →
      (z.offsetAt u = z.offsetAt later.second ↔ turn ≤ u)) ∧
    ∃ t, z.rewind earlier later = .ok t ∧ t.second = turn ∧
      (t.nano = 0 ↔
        ∃ k : Nat, later.second - earlier.second ∣ (turn - earlier.second) * 2 ^ k) := by
  obtain ⟨w, -, hearlier, hlater⟩ := h.shown
  obtain ⟨hen, hln⟩ := h.nano_eq
  have hll : ¬ later.IsLeap := Stamp.not_isLeap_of_nano_eq_zero hln
  refine ⟨fun u hlow hhigh => h.offsetAt_eq_iff (Int.le_of_lt hlow) hhigh, ?_⟩
  obtain ⟨t, ht⟩ := exists_halve (Duration.seconds (z.offsetAt later.second))
    (Nat.log2 (later.since earlier).toNat + 1) (Stamp.not_isLeap_of_nano_eq_zero hen) hll hread
  have hrewind : z.rewind earlier later = .ok t := by
    rw [rewind, lead_of_read hll hlater]
    exact ht
  have hsecond := h.second_of_rewind hrewind
  obtain ⟨hleap, halvings, henough, hnanos⟩ := h.nanos_of_rewind hrewind
  refine ⟨t, hrewind, hsecond, ?_⟩
  -- both instants show one time, so they lie as far apart as their offsets
  have hbetween := h.between
  have hes := (read_eq_ok.mp hearlier).1
  have hls := (read_eq_ok.mp hlater).1
  have := hz earlier.second
  have := hz later.second
  have hiff := upperEnd_eq_iff (earlier.second * 1000000000)
    (show 0 < turn - earlier.second by omega)
    (show turn - earlier.second ≤ later.second - earlier.second by omega) (by omega) henough
  have hpoint : earlier.second * 1000000000 + (turn - earlier.second) * 1000000000 =
      turn * 1000000000 := by omega
  have hend : earlier.second * 1000000000 + (later.second - earlier.second) * 1000000000 =
      later.second * 1000000000 := by omega
  rw [← hiff, hpoint, hend, ← hnanos, Stamp.nanos, hsecond]
  omega

theorem changes_eastern : eastern.Changes 1793512800 :=
  show eastern.offsetAt _ ≠ eastern.offsetAt _ by decide

/-- At a quarter past one on 1 November 2026 the turn to winter time lies three quarters of the way
to a quarter past one an hour later, and it is found exactly. -/
theorem rewind_exact_iff_quarter : ∃ earlier later t : Instant,
    eastern.TurnsOnce earlier later 1793512800 ∧
      (earlier.second = 1793510100 ∧ later.second = 1793513700) ∧
      eastern.rewind earlier later = .ok t ∧ t.second = 1793512800 ∧ t.nano = 0 := by
  let earlier : Instant := ⟨1793510100, 0, by decide, by decide, by decide⟩
  let later : Instant := ⟨1793513700, 0, by decide, by decide, by decide⟩
  have h : eastern.TurnsOnce earlier later 1793512800 :=
    wholeMinutes_eastern.toSpaced.turnsOnce
      (w := ⟨1793495700, 0, by decide, by decide, by decide⟩) (by decide) (by decide +kernel)
      (by decide +kernel) changes_eastern (by decide)
  obtain ⟨-, t, ht, hsecond, hexact⟩ := rewind_exact_iff wholeMinutes_eastern.within h
    fun t hlow hhigh => exists_read wholeMinutes_eastern.within
      ⟨Int.le_trans (by decide) hlow, Int.le_trans hhigh (by decide)⟩
  exact ⟨earlier, later, t, h, ⟨rfl, rfl⟩, ht, hsecond, hexact.mpr ⟨2, 3, by decide⟩⟩

/-- **Rewinding goes past a turn** that lies five sixths of the way, as it does at ten past one, by
more than half a second. -/
theorem rewind_goes_past : ∃ earlier later t : Instant,
    eastern.TurnsOnce earlier later 1793512800 ∧
      (earlier.second = 1793509800 ∧ later.second = 1793513400) ∧
      eastern.rewind earlier later = .ok t ∧ t.second = 1793512800 ∧ t.nano = 585937500 := by
  let earlier : Instant := ⟨1793509800, 0, by decide, by decide, by decide⟩
  let later : Instant := ⟨1793513400, 0, by decide, by decide, by decide⟩
  have h : eastern.TurnsOnce earlier later 1793512800 :=
    wholeMinutes_eastern.toSpaced.turnsOnce
      (w := ⟨1793495400, 0, by decide, by decide, by decide⟩) (by decide) (by decide +kernel)
      (by decide +kernel) changes_eastern (by decide)
  have ht : eastern.rewind earlier later =
      .ok ⟨1793512800, 585937500, by decide, by decide, by decide⟩ := by decide +kernel
  exact ⟨earlier, later, _, h, ⟨rfl, rfl⟩, ht, rfl, rfl⟩

end Zone

end Crontab
