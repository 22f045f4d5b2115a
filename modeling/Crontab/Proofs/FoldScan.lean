import Crontab.Proofs.FarFromGaps

/-! # Agreement with a scan

The reference for a search is a scan that goes from minute to minute of universal time and asks
of each whether an occurrence is due (`Schedule.ScansTo`).  Clocks that keep to whole minutes
start their minutes with those of universal time, so there the scan sees every occurrence
(`Schedule.dueOnMinute_iff`).

**Where no clock is put forward nearby a search comes to what the scan comes to**, in either
direction and through folds (`Schedule.occurrence_scansTo`): it could stray from the scan only
by a stand-in, and for that the clock has to be put forward past a minute.  Nor does it give up
there, so what the scan comes to it finds (`Schedule.occurrence_eq_ok_iff_scansTo`), and a minute
that a fold shows twice it finds in either pass (`Schedule.exists_scansTo_of_showsTwice`).
-/

namespace Crontab

open Outcome

namespace Zone

variable {z : Zone} {t : Instant} {turn : Int} {m : CivilMinute}

/-- Clocks that keep to whole minutes start their minutes with those of universal time. -/
theorem WholeMinutes.beginsMinute_iff (hz : z.WholeMinutes) {w : WallTime}
    (hw : z.read t = .ok w) : z.BeginsMinute t ↔ t.OnMinute := by
  have hwhole := hz.offset_whole t.second
  obtain ⟨hs, hn⟩ := read_eq_ok.mp hw
  have hiff : z.BeginsMinute t ↔ w.OnMinute := by
    unfold BeginsMinute Stamp.OnMinute
    simp [hw]
  rw [hiff, Stamp.onMinute_iff, Stamp.onMinute_iff]
  omega

end Zone

namespace Schedule

variable {s : Schedule} {z : Zone} {d : Direction} {origin r t : Instant}

/-- **What a scan from minute to minute past an instant comes to first**: the nearest start of a
minute at which an occurrence is due. -/
structure ScansTo (s : Schedule) (z : Zone) (d : Direction) (origin r : Instant) : Prop where
  onMinute : r.OnMinute
  due : s.isDue z r = .ok true
  past : d.Past origin r
  nearest : ∀ t : Instant, t.OnMinute → s.isDue z t = .ok true → d.Past origin t →
    t = r ∨ d.Past r t

/-- On clocks that keep to whole minutes a scan sees every occurrence. -/
theorem dueOnMinute_iff (hz : z.WholeMinutes) :
    t.OnMinute ∧ s.isDue z t = .ok true ↔ s.Occurs z t := by
  unfold Occurs
  rw [← occurs_iff]
  refine and_congr_left fun hdue => ?_
  obtain ⟨w, hw, -⟩ := bind_eq_ok.mp hdue
  exact (hz.beginsMinute_iff hw).symm

theorem Journey.scansTo (hz : z.WholeMinutes) (ho : origin.Inside 96) (hr : r.Inside 96)
    (ha : z.Aligned d origin) (h : s.Journey z d origin r)
    (hnone : ∀ turn m, s.StandsIn z turn m r → ¬ d.Meets origin.second turn) :
    s.ScansTo z d origin r := by
  obtain ⟨hpast, hoccurs | ⟨turn, m, hx, hmeets⟩⟩ := h.occurs_or_standsIn hz.toRegular ho hr
  · obtain ⟨honMinute, hdue⟩ := (dueOnMinute_iff hz).mpr hoccurs
    refine ⟨honMinute, hdue, hpast, fun t ht hdue' hot => ?_⟩
    rcases d.past_trichotomy t r with htr | heq | hrt
    · obtain ⟨turn, m, hx, hmeets, -⟩ := h.exists_standsIn_of_missed hz.toRegular ho hr ha
        ((dueOnMinute_iff hz).mp ⟨ht, hdue'⟩) hot htr
      exact absurd hmeets (hnone turn m hx)
    · exact Or.inl heq
    · exact Or.inr hrt
  · exact absurd hmeets (hnone turn m hx)

/-- **On clocks that keep to whole minutes a search agrees with a scan** if no clock is put forward
from three days before to three days after, for every origin forward and for the start of every
minute backward. -/
theorem occurrence_scansTo {expression : String} (hs : parse expression = .ok s)
    (hz : z.WholeMinutes) (ho : origin.Inside 96) (hr : r.Inside 96) :
    (s.next z origin = .ok r →
      (∀ turn, z.PutForward turn →
        ¬ (origin.second - 259200 < turn ∧ turn < r.second + 259200)) →
      s.ScansTo z .forward origin r) ∧
    (origin.OnMinute → s.previous z origin = .ok r →
      (∀ turn, z.PutForward turn →
        ¬ (r.second - 259200 < turn ∧ turn < origin.second + 259200)) →
      s.ScansTo z .backward origin r) := by
  have hv := valid_of_parse hs
  constructor
  · intro h hsteady
    refine (journey_of_occurrence hv hz.toRegular ho h).scansTo hz ho hr (z.aligned_forward origin)
      fun turn m hx hmeets => hsteady turn hx.passesOver.putForward ?_
    have := hx.turn_near hz.within
    simp only [Direction.Meets] at hmeets
    omega
  · intro hmin h hsteady
    refine (journey_of_occurrence hv hz.toRegular ho h).scansTo hz ho hr (fun _ => ⟨hz, hmin⟩)
      fun turn m hx hmeets => hsteady turn hx.passesOver.putForward ?_
    have := hx.turn_near hz.within
    simp only [Direction.Meets] at hmeets
    omega

/-- On 1 November 2026 the clocks are put back at two in the morning.  Half past one is found in
both passes, from either side. -/
theorem occurrence_scansTo_fold : ∃ s, parse "30 1 * * *" = .ok s ∧ ∃ first second : Instant,
    (first.second = 1793511000 ∧ second.second = 1793514600) ∧
      s.ScansTo Zone.eastern .forward first second ∧
      s.ScansTo Zone.eastern .backward second first := by
  obtain ⟨s, hs, hnext, hprev⟩ := exists_of_parse "30 1 * * *" (fun s =>
      s.next Zone.eastern ⟨1793511000, 0, by decide, by decide, by decide⟩ =
        .ok ⟨1793514600, 0, by decide, by decide, by decide⟩ ∧
      s.previous Zone.eastern ⟨1793514600, 0, by decide, by decide, by decide⟩ =
        .ok ⟨1793511000, 0, by decide, by decide, by decide⟩) (by decide +kernel)
  have hforward : ∀ turn, Zone.eastern.PutForward turn → turn = 1772953200 := by
    intro turn hforward
    obtain ⟨t, ht, rfl⟩ := Zone.exists_of_offsetFrom_ne (Int.ne_of_lt hforward)
    rcases List.mem_cons.mp ht with rfl | ht
    · rfl
    · rw [List.mem_singleton.mp ht] at hforward
      exact absurd hforward (by decide)
  refine ⟨s, hs, ⟨1793511000, 0, by decide, by decide, by decide⟩,
    ⟨1793514600, 0, by decide, by decide, by decide⟩, ⟨rfl, rfl⟩, ?_, ?_⟩
  · refine (occurrence_scansTo hs Zone.wholeMinutes_eastern ?_ ?_).1 hnext fun turn h => ?_
    · exact ⟨by decide, by decide⟩
    · exact ⟨by decide, by decide⟩
    · have := hforward turn h
      simp only
      omega
  · refine (occurrence_scansTo hs Zone.wholeMinutes_eastern ?_ ?_).2 rfl hprev fun turn h => ?_
    · exact ⟨by decide, by decide⟩
    · exact ⟨by decide, by decide⟩
    · have := hforward turn h
      simp only
      omega

/-! ### What a scan comes to is found -/

/-- A search comes to what a scan comes to if no clock is put forward nearby. -/
theorem scansTo_of_occurrence (hv : s.Valid) (hz : z.WholeMinutes) (ho : origin.Inside 96)
    (hr : r.Inside 96) (ha : z.Aligned d origin) (hgap : z.NoGapAround origin.second r.second)
    (h : s.occurrence z d origin = .ok r) : s.ScansTo z d origin r := by
  refine (journey_of_occurrence hv hz.toRegular ho h).scansTo hz ho hr ha fun turn m hx hmeets => ?_
  have hnear := hx.turn_near hz.within
  have hfar := hgap turn hx.passesOver.putForward
  cases d <;> simp only [Direction.Meets] at hmeets <;> omega

/-- **A minute that is due past the origin is found, or one before it**, if no clock is put forward
nearby, and the search comes to what a scan comes to. -/
theorem exists_scansTo {expression : String} (hs : parse expression = .ok s) (hz : z.WholeMinutes)
    (hin : origin.Inside 240000) (hmin : d = .backward → origin.OnMinute)
    (hgap : z.NoGapAround origin.second t.second) (ht : t.OnMinute)
    (hdue : s.isDue z t = .ok true) (hpast : d.Past origin t) :
    ∃ r, s.occurrence z d origin = .ok r ∧ s.ScansTo z d origin r ∧ (r = t ∨ d.Past r t) := by
  have hv := valid_of_parse hs
  have ho : origin.Inside 96 := hin.mono (by decide)
  have ha : z.Aligned d origin := fun hd => ⟨hz, hmin hd⟩
  obtain ⟨r, h, hor⟩ := exists_occurrence hv hz.toRegular d hin hgap.left
  have hr := inside_of_occurrence hv hz.within hin h
  have hrt : r = t ∨ d.Past r t := by
    rcases d.past_trichotomy t r with htr | heq | hrt
    · -- the search could go past the minute only for a stand-in
      obtain ⟨turn, m, hx, hmeets, hnot⟩ := (journey_of_occurrence hv hz.toRegular ho h)
        |>.exists_standsIn_of_missed hz.toRegular ho hr ha
          ((dueOnMinute_iff hz).mp ⟨ht, hdue⟩) hpast htr
      have hfar := hgap turn hx.passesOver.putForward
      cases d <;> simp only [Direction.Meets] at hmeets hnot <;> omega
    · exact Or.inl heq.symm
    · exact Or.inr hrt
  refine ⟨r, h, scansTo_of_occurrence hv hz ho hr ha (fun turn hturn => ?_) h, hrt⟩
  have hfar := hgap turn hturn
  rcases hrt with rfl | hrt
  · exact hfar
  · cases d <;> simp only [Direction.Past, Stamp.lt_def] at hor hrt <;> omega

/-- **A search finds exactly what a scan comes to**, in either direction, if no clock is put forward
nearby. -/
theorem occurrence_eq_ok_iff_scansTo {expression : String} (hs : parse expression = .ok s)
    (hz : z.WholeMinutes) (hin : origin.Inside 240000) (hmin : d = .backward → origin.OnMinute)
    (hgap : z.NoGapAround origin.second t.second) :
    s.occurrence z d origin = .ok t ↔ s.ScansTo z d origin t := by
  have hv := valid_of_parse hs
  constructor
  · intro h
    exact scansTo_of_occurrence hv hz (hin.mono (by decide))
      (inside_of_occurrence hv hz.within hin h) (fun hd => ⟨hz, hmin hd⟩) hgap h
  · intro hscan
    obtain ⟨r, h, hr, hrt⟩ :=
      exists_scansTo hs hz hin hmin hgap hscan.onMinute hscan.due hscan.past
    rcases hrt with rfl | hrt
    · exact h
    · rcases hscan.nearest r hr.onMinute hr.due hr.past with rfl | htr
      · exact h
      · exact absurd (Direction.past_trans hrt htr) (Direction.past_irrefl r)

/-- **A repeated minute is found in both passes.**  The clock is put back at `turn` and shows a
minute on both sides of it, which is due at `t` in one of the passes.  From up to nine hours away, on
either side, a search finds `t` if no other minute is due before it, and else the one that is. -/
theorem exists_scansTo_of_showsTwice {expression : String} (hs : parse expression = .ok s)
    (hz : z.WholeMinutes) {turn : Int} (htwice : z.ShowsTwice turn (t.second + z.offsetAt t.second))
    (hin : origin.Inside 240000) (hmin : d = .backward → origin.OnMinute)
    (hnear : (origin.second - t.second).natAbs ≤ 32400) (ht : t.OnMinute)
    (hdue : s.isDue z t = .ok true) (hpast : d.Past origin t) :
    ∃ r, s.occurrence z d origin = .ok r ∧ s.ScansTo z d origin r ∧ (r = t ∨ d.Past r t) := by
  have hclose := htwice.near hz.toRegular (Int.le_refl _) (Int.lt_add_of_pos_right _ (by decide))
  exact exists_scansTo hs hz hin hmin
    (htwice.noGapAround hz.toRegular (by omega) (by omega)) ht hdue hpast

end Schedule

end Crontab
