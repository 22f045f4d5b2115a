import Crontab.Proofs.Journey

/-! # What a reported run stands for

Whatever a search reports, it has taken for a minute that the schedule admits
(`Schedule.exists_resolves_of_occurrence`): in its first attempt or a later one, setting out from
the minute next to that of the origin or once more from the other pass of a fold.

Where clocks are seldom changed, guessing gives up on a time only if no instant shows it.  So
**a reported run shows the minute that it was taken for, or the clock never shows that minute
and the run is all that stands for it** (`Schedule.occurrence_sound`).  Nothing is asked of how
far the clock is put back or forward, or of where the search sets out.
-/

namespace Crontab

open Outcome

/-- **A time that some instant shows is taken to no instant that does not show it.** -/
theorem Zone.Spaced.read_of_showing {z : Zone} {w : WallTime} {t u : Instant} {ts : List Instant}
    (hz : z.Spaced) (hin : w.Inside 50) (hleap : ¬ w.IsLeap) (hu : z.read u = .ok w)
    (h : z.showing w = .ok ts) (ht : t ∈ ts) : z.read t = .ok w := by
  rcases Zone.showing_spec hz.within hin hleap with ⟨-, found, hfound, hshow, -⟩ | ⟨-, -, hmiss, -⟩
  · obtain rfl : ts = found := Except.ok.inj (h.symm.trans hfound)
    exact hshow.shows t ht
  · exact absurd hmiss (hz.not_misses hu)

namespace Schedule

variable {s : Schedule} {z : Zone} {d : Direction} {origin r : Instant} {m : CivilMinute}

/-- The result of a search is an instant that it has taken for an admitted minute. -/
theorem exists_resolves_of_occurrence (hv : s.Valid) (h : s.occurrence z d origin = .ok r) :
    ∃ m : CivilMinute, (m.InUse ∧ s.admits m = true) ∧ z.Resolves d origin m (some r) := by
  have hfinds : ∀ {start x}, s.firstPast z d origin maxAttempts start = .ok x →
      ∃ m : CivilMinute, (m.InUse ∧ s.admits m = true) ∧ z.Resolves d origin m (some x) := by
    intro start x hx
    obtain ⟨m, hm⟩ := finds_of_firstPast hv hx
    exact ⟨m, hm.candidate.admitted, hm.resolves⟩
  obtain ⟨w, start, found, -, -, hfound, ⟨-, rfl⟩ | ⟨restart, again, -, hagain, rfl⟩⟩ :=
    occurrence_eq_ok_iff.mp h
  · exact hfinds hfound
  · rcases Direction.nearer_eq d found again with he | he
    · exact he.symm ▸ hfinds hfound
    · exact he.symm ▸ hfinds hagain

/-- What a search takes for a minute shows its start, or nothing shows it and it is the only
instant that a search can take. -/
theorem read_or_only_of_resolves (hz : z.Spaced) (hr : r.Inside 96)
    (h : z.Resolves d origin m (some r)) : ∃ w, m.toWall? = some w ∧
      (z.read r = .ok w ∨ (∀ t, z.read t ≠ .ok w) ∧ z.showing w = .ok [r]) := by
  obtain ⟨-, hnear⟩ := h.nearby hz.within
  obtain ⟨w, ts, hw, hts, hpick⟩ := h
  obtain ⟨hws, hwn, -⟩ := CivilMinute.figures_of_toWall? hw
  have hleap : ¬ w.IsLeap := Stamp.not_isLeap_of_nano_eq_zero hwn
  have hmem : r ∈ ts := (Direction.pick_eq_some hpick).1
  have hin : w.Inside 50 := by
    obtain ⟨hf, hl⟩ := hr
    exact ⟨by omega, by omega⟩
  refine ⟨w, hw, ?_⟩
  by_cases hshown : ∃ u, z.read u = .ok w
  · obtain ⟨u, hu⟩ := hshown
    exact Or.inl (hz.read_of_showing hin hleap hu hts hmem)
  · have hnot : ∀ t, z.read t ≠ .ok w := fun t ht => hshown ⟨t, ht⟩
    obtain ⟨t, ht⟩ := Zone.showing_of_not_shown hz.within hin hleap hnot
    obtain rfl : ts = [t] := Except.ok.inj (hts.symm.trans ht)
    rw [List.mem_singleton.mp hmem]
    exact Or.inr ⟨hnot, ht⟩

/-- **Every run that a search reports is sound.**  It lies past the origin, and there is a minute
that the schedule admits such that the run is due at its start, or such that the clock never shows
its start and the run is the one instant that this time is taken to. -/
theorem occurrence_sound {expression : String} (hs : parse expression = .ok s) (hz : z.Spaced)
    (h : s.occurrence z d origin = .ok r) (hr : r.Inside 96) :
    d.Past origin r ∧ ∃ w : WallTime, (w.OnMinute ∧ s.admitsWall w = true) ∧
      (z.read r = .ok w ∧ s.isDue z r = .ok true ∨
        (∀ t, z.read t ≠ .ok w) ∧ z.showing w = .ok [r]) := by
  obtain ⟨m, ⟨-, hadm⟩, hres⟩ := exists_resolves_of_occurrence (valid_of_parse hs) h
  obtain ⟨w, hw, hend⟩ := read_or_only_of_resolves hz hr hres
  obtain ⟨hws, hwn, hcivil⟩ := CivilMinute.figures_of_toWall? hw
  have hadmits : s.admitsWall w = true := by
    rw [admitsWall, hcivil]
    exact hadm
  refine ⟨hres.past, w, ⟨Stamp.onMinute_iff.mpr ⟨by omega, hwn⟩, hadmits⟩, ?_⟩
  rcases hend with hread | hskipped
  · exact Or.inl ⟨hread, bind_eq_ok.mpr ⟨w, hread, congrArg Except.ok hadmits⟩⟩
  · exact Or.inr hskipped

/-- On 8 March 2026 the clocks are put forward from two to three.  The run that a search forward
reports for half past two lies ahead of it, and no instant shows half past two. -/
theorem occurrence_sound_gap : ∃ s, parse "30 2 * * *" = .ok s ∧ ∃ origin r : Instant,
    (origin.second = 1772946000 ∧ r.second = 1772955000) ∧
      s.next Zone.eastern origin = .ok r ∧ origin < r ∧
      ∃ w : WallTime, w.OnMinute ∧ s.admitsWall w = true ∧ (∀ t, Zone.eastern.read t ≠ .ok w) ∧
        Zone.eastern.showing w = .ok [r] := by
  obtain ⟨s, hs, hnext, hdue⟩ := exists_of_parse "30 2 * * *" (fun s =>
      s.next Zone.eastern ⟨1772946000, 0, by decide, by decide, by decide⟩ =
        .ok ⟨1772955000, 0, by decide, by decide, by decide⟩ ∧
      s.isDue Zone.eastern ⟨1772955000, 0, by decide, by decide, by decide⟩ = .ok false)
    (by decide +kernel)
  obtain ⟨hpast, w, ⟨hminute, hadm⟩, ⟨-, hdue'⟩ | hskipped⟩ :=
    occurrence_sound hs Zone.wholeMinutes_eastern.toSpaced hnext ⟨by decide, by decide⟩
  · rw [hdue] at hdue'
    cases hdue'
  · exact ⟨s, hs, _, _, ⟨rfl, rfl⟩, hnext, hpast, w, hminute, hadm, hskipped⟩

end Schedule

end Crontab
