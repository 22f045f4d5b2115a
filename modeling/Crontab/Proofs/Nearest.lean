import Crontab.Proofs.Correction

/-! # A search finds the nearest admitted minute

What one correction keeps, a search keeps to its end (`Schedule.seek_spec`): no admitted
minute is left behind.  So the minute that a search comes to rest at is admitted, and
**no minute between the start and the end of a search is** (`Schedule.seek_nearest`),
whatever the direction, the fields that have a say in the day, and the corrections allowed.
-/

namespace Crontab.Schedule

variable {s : Schedule} {d : Direction}

/-- A search ends at an admitted minute in use, at its start or past it, and leaves no
admitted minute behind. -/
theorem seek_spec (hv : s.Valid) : ∀ {corrections : Nat} {c r : CivilMinute}, c.Exists →
    s.seek d corrections c = .ok r → r.InUse ∧ s.admits r = true ∧ c.Ahead d r ∧
      ∀ m : CivilMinute, m.Exists → s.admits m = true → c.Ahead d m → r.Ahead d m
  | 0, _, _, _, h => by cases h
  | corrections + 1, c, r, hc, h => by
      rw [seek] at h
      cases hlook : s.correct? d c with
      | error e =>
          rw [hlook] at h
          cases h
      | ok next =>
          rw [hlook] at h
          cases next with
          | none =>
              cases h
              obtain ⟨huse, hadm⟩ := admits_of_correct?_eq_none hc hlook
              exact ⟨huse, hadm, Direction.reaches_refl _ _, fun m _ _ ha => ha⟩
          | some c' =>
              have hcor := corrects_of_correct? hv hc hlook
              obtain ⟨huse, hadm, hpast, hahead⟩ := seek_spec hv hcor.ready.exist h
              have hstep : c.Ahead d c' := Direction.reaches_iff.mpr (Or.inr hcor.passes)
              exact ⟨huse, hadm, Direction.reaches_trans hstep hpast,
                fun m he hm ha => hahead m he hm (hcor.ahead m he hm ha)⟩

/-- **A search finds the nearest admitted minute.**  It ends at a wall time that the
schedule admits, at its start or past it, and the schedule admits no minute of the
calendar from the start up to there. -/
theorem seek_nearest {expression : String} (hs : parse expression = .ok s) (d : Direction)
    (corrections : Nat) (t : WallTime) {c : CivilMinute}
    (h : s.seek d corrections t.civil = .ok c) :
    (∃ w : WallTime, c.toWall? = some w ∧ w.civil = c ∧ s.admitsWall w = true) ∧
      d.Reaches t.civil.number c.number ∧
      ∀ m : CivilMinute, m.Exists → d.Reaches t.civil.number m.number →
        d.Passes m.number c.number → s.admits m = false := by
  have hstart := t.civil_inUse.exists
  obtain ⟨huse, hadm, hpast, hahead⟩ := seek_spec (valid_of_parse hs) hstart h
  obtain ⟨w, hw, -, -, hcivil⟩ := CivilMinute.exists_toWall? huse
  refine ⟨⟨w, hw, hcivil, ?_⟩, ?_, ?_⟩
  · rw [admitsWall, hcivil]
    exact hadm
  · exact (CivilMinute.reaches_number_iff hstart huse.exists).mpr hpast
  · intro m he hfrom hbefore
    rw [CivilMinute.reaches_number_iff hstart he] at hfrom
    rw [CivilMinute.passes_number_iff he huse.exists] at hbefore
    apply Bool.eq_false_iff.mpr
    intro hm
    exact Direction.not_reaches.mpr hbefore (hahead m he hm hfrom)

/-- From 1 March 2025 on, the first 29 February at a quarter past ten lies in 2028. -/
theorem seek_nearest_leapDay : ∃ s, parse "15 10 29 2 *" = .ok s ∧
    ∃ t : WallTime, t.second = 1740787200 ∧
      s.seek .forward maxCorrections t.civil = .ok ⟨⟨2028, 1, 29⟩, 10, 15⟩ ∧
      ∀ m : CivilMinute, m.Exists → Direction.forward.Reaches t.civil.number m.number →
        Direction.forward.Passes m.number (CivilMinute.number ⟨⟨2028, 1, 29⟩, 10, 15⟩) →
        s.admits m = false := by
  obtain ⟨s, hs, h⟩ := exists_of_parse "15 10 29 2 *" (fun s => s.seek .forward maxCorrections
      (⟨1740787200, 0, by decide, by decide, by decide⟩ : WallTime).civil =
        .ok ⟨⟨2028, 1, 29⟩, 10, 15⟩) (by decide +kernel)
  exact ⟨s, hs, _, rfl, h, (seek_nearest hs .forward maxCorrections _ h).2.2⟩

end Crontab.Schedule
