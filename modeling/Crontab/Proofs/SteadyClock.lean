import Crontab.Proofs.Journey
import Crontab.Question

/-! # Clocks that are never changed

On a clock that is always ahead by one offset (`Zone.Steady`) every time is shown by exactly one
instant, and times come in the order of the instants that show them.  So a search is a search of
the calendar and no more: **it comes to the nearest occurrence ahead, and leaves the calendar
exactly when there is none** (`Schedule.occurrence_nearestDue`).

A clock of universal time shows every instant, so there this holds up to the ends of the
calendar.  Any other clock runs out of the calendar at one end and is read only away from
the ends.
-/

namespace Crontab

open Outcome

namespace Stamp

variable {clock : Clock} {a : Stamp clock}

/-- A point is the only one in an ascending list of which it is the only member. -/
theorem eq_singleton {ts : List (Stamp clock)} (hts : ts.Pairwise (· < ·))
    (hmem : ∀ t, t ∈ ts ↔ t = a) : ts = [a] := by
  match ts, hts, hmem with
  | [], _, hmem => exact absurd ((hmem a).mpr rfl) (by simp)
  | [x], _, hmem => rw [(hmem x).mp (by simp)]
  | x :: y :: rest, hts, hmem =>
    have hxy : x < y := (List.pairwise_cons.mp hts).1 y (by simp)
    rw [(hmem x).mp (by simp), (hmem y).mp (by simp)] at hxy
    exact absurd hxy (lt_irrefl a)

end Stamp

namespace Zone

variable {z : Zone} {offset : Int} {d : Direction} {origin t : Instant} {w : WallTime}
  {m : CivilMinute}

/-- **A clock that is never changed**: it is always ahead by the same offset of less than a
day. -/
structure Steady (z : Zone) (offset : Int) : Prop where
  within : -86400 < offset ∧ offset < 86400
  offsetAt : ∀ second, z.offsetAt second = offset

theorem steady_utc : utc.Steady 0 := ⟨by decide, fun _ => rfl⟩

theorem Steady.not_changes (hz : z.Steady offset) (second : Int) : ¬ z.Changes second := by
  unfold Changes
  rw [hz.offsetAt, hz.offsetAt]
  exact fun h => h rfl

theorem Steady.regular (hz : z.Steady offset) : z.Regular where
  within second := by
    rw [hz.offsetAt]
    exact hz.within
  apart a _ ha := absurd ha (hz.not_changes a)
  back second := by
    rw [hz.offsetAt, hz.offsetAt]
    omega

/-- **A steady clock shows every time once**, if it has no offset or the time is away from the
ends of the calendar. -/
theorem Steady.showing (hz : z.Steady offset) (hn : w.nano = 0)
    (hin : offset = 0 ∨ w.Inside 50) :
    ∃ t : Instant, z.showing w = .ok [t] ∧ t.second + offset = w.second ∧ t.nano = 0 := by
  rcases hin with rfl | hin
  · -- the first guess is right, and so are its twins
    have hread : z.read (w.readOn .utc) = .ok w := by
      refine read_eq_ok.mpr ⟨?_, rfl⟩
      rw [hz.offsetAt, Stamp.second_readOn, Int.add_zero]
    have hsettle : z.settle w = .ok (.exact (w.readOn .utc)) := settleFrom_of_read hread 2 none
    have htwin : ∀ probe, z.addTwin w probe [w.readOn .utc] = .ok [w.readOn .utc] := by
      intro probe
      have hadd : (w.readOn .utc).add? (Duration.seconds 0) = some (w.readOn .utc) :=
        Stamp.add?_zero _
      cases probe <;>
        simp [addTwin, hz.offsetAt, hadd, hread, bind, Except.bind, pure, Except.pure]
    refine ⟨w.readOn .utc, ?_, Int.add_zero _, hn⟩
    simp [Zone.showing, hsettle, htwin, bind, Except.bind]
  · have hleap := Stamp.not_isLeap_of_nano_eq_zero hn
    obtain ⟨hf, hl⟩ := hin
    have hw := hz.within
    have hin24 : w.Inside 24 := ⟨by omega, by omega⟩
    obtain ⟨t, hts, htn, ht⟩ := exists_read_eq hz.regular.within hin24
      (u := w.second - offset) (by rw [hz.offsetAt]; omega)
    obtain ⟨ts, hshowing, hasc, hmem⟩ := hz.regular.showing_of_shown ⟨hf, hl⟩ hleap ht
    refine ⟨t, ?_, by omega, htn.trans hn⟩
    rw [hshowing, Stamp.eq_singleton hasc fun u => ?_]
    rw [hmem]
    constructor
    · intro hu
      obtain ⟨hus, hun⟩ := read_eq_ok.mp hu
      have := hz.offsetAt u.second
      exact Stamp.eq_of_figures (by omega) (by omega)
    · rintro rfl
      exact ht

/-- A steady clock can be read. -/
theorem Steady.exists_read (hz : z.Steady offset) (hin : offset = 0 ∨ origin.Inside 24) :
    ∃ w, z.read origin = .ok w := by
  rcases hin with rfl | hin
  · have hoff := hz.offsetAt origin.second
    exact ⟨origin.readOn .wall, read_eq_ok.mpr
      ⟨by rw [hoff, Stamp.second_readOn, Int.add_zero], rfl⟩⟩
  · exact Zone.exists_read hz.regular.within hin

/-- A steady clock has no other pass for which to set out. -/
theorem Steady.otherPass?_eq_none (hz : z.Steady offset) (d : Direction)
    (hin : offset = 0 ∨ origin.Inside 75) (hw : z.read origin = .ok w) :
    z.otherPass? d origin w.startOfMinute = .ok none := by
  have hoff := hz.offsetAt origin.second
  have hwithin := hz.within
  have hws := (read_eq_ok.mp hw).1
  have hfirst : w.startOfMinute.second = w.second - w.second % 60 := rfl
  obtain ⟨t, ht, -⟩ := hz.showing (w := w.startOfMinute) rfl
    (hin.imp_right fun ⟨hf, hl⟩ => ⟨by omega, by omega⟩)
  simp [otherPass?, ht, bind, Except.bind, pure, Except.pure]

/-- **The instant lies ahead of a search**: after the origin, or before the start of the minute
that the clock shows there. -/
def LiesAhead (z : Zone) : Direction → (origin t : Instant) → Prop
  | .forward, origin, t => origin < t
  | .backward, origin, t =>
    t.second < origin.second - (origin.second + z.offsetAt origin.second) % 60

end Zone

namespace Schedule

variable {s : Schedule} {z : Zone} {offset : Int} {d : Direction} {origin r t : Instant}
  {start : WallTime} {c m : CivilMinute}

/-- An occurrence is due at the start of a minute ahead of a search. -/
structure DueAhead (s : Schedule) (z : Zone) (d : Direction) (origin t : Instant) : Prop where
  begins : z.BeginsMinute t
  due : s.isDue z t = .ok true
  ahead : z.LiesAhead d origin t

/-- **The nearest occurrence ahead of a search.** -/
structure NearestDue (s : Schedule) (z : Zone) (d : Direction) (origin r : Instant) : Prop
    extends s.DueAhead z d origin r where
  nearest : ∀ t, s.DueAhead z d origin t → t = r ∨ d.Past r t

/-- On a steady clock the occurrences ahead begin the admitted minutes past that of the
origin. -/
theorem dueAhead_iff (hz : z.Steady offset) : s.DueAhead z d origin t ↔
    ∃ m : CivilMinute, (m.InUse ∧ s.admits m = true) ∧ z.Begins t m ∧
      d.Passes (z.minuteAt origin.second) (m.number * 60) := by
  have hahead : ∀ {m : CivilMinute}, z.Begins t m →
      (z.LiesAhead d origin t ↔ d.Passes (z.minuteAt origin.second) (m.number * 60)) := by
    rintro m ⟨htn, hts⟩
    rw [hz.offsetAt] at hts
    unfold Zone.minuteAt
    cases d <;> simp only [Zone.LiesAhead, Direction.Passes, Stamp.lt_def, hz.offsetAt] <;> omega
  constructor
  · rintro ⟨hbegins, hdue, hlies⟩
    obtain ⟨m, hm, ht⟩ := occurs_iff.mp ⟨hbegins, hdue⟩
    exact ⟨m, hm, ht, (hahead ht).mp hlies⟩
  · rintro ⟨m, hm, ht, hpass⟩
    obtain ⟨hbegins, hdue⟩ := occurs_iff.mpr ⟨m, hm, ht⟩
    exact ⟨hbegins, hdue, (hahead ht).mpr hpass⟩

/-- **What a search on a steady clock takes for the nearest minute** is the nearest occurrence
ahead. -/
theorem Nearest.nearestDue (hz : z.Steady offset)
    (hstart : start.second = z.minuteAt origin.second + d.sign * 60)
    (hc : s.Nearest d start.civil c)
    (hin : offset = 0 ∨ firstSecond + 180000 ≤ c.number * 60 ∧ c.number * 60 ≤ lastSecond - 180000) :
    ∃ t, z.Resolves d origin c (some t) ∧ s.NearestDue z d origin t := by
  have hpass := passes_of_candidate hstart hc.candidate
  have hoff := hz.offsetAt origin.second
  obtain ⟨hminute, hminute'⟩ := z.minuteAt_le origin.second
  have hmod := z.minuteAt_mod origin.second
  obtain ⟨w, hw, hws, hwn, -⟩ := CivilMinute.exists_toWall? hc.candidate.inUse
  obtain ⟨t, ht, hts, htn⟩ := hz.showing hwn (hin.imp_right fun ⟨hf, hl⟩ => ⟨by omega, by omega⟩)
  have hpast : d.Past origin t := by
    cases d <;> simp only [Direction.Passes, Direction.Past, Stamp.lt_def] at * <;> omega
  have hbegins : z.Begins t c := ⟨htn, by rw [hz.offsetAt, hts, hws]⟩
  refine ⟨t, ⟨w, [t], hw, ht, ?_⟩, (dueAhead_iff hz).mpr ⟨c, hc.candidate.admitted, hbegins, hpass⟩,
    fun u hu => ?_⟩
  · cases d <;> simpa [Direction.pick, Direction.Past] using hpast
  · -- times come in the order of the instants that show them
    obtain ⟨m, hm, ⟨hun, hus⟩, hpassm⟩ := (dueAhead_iff hz).mp hu
    have hreach := hc.reaches m (candidate_of_passes hm hpassm (Or.inl hstart))
    rw [hz.offsetAt] at hus
    rcases d.past_trichotomy u t with hut | rfl | htu
    · rw [Direction.past_iff hun htn] at hut
      cases d <;> simp only [Direction.Passes, Direction.Reaches] at * <;> omega
    · exact Or.inl rfl
    · exact Or.inr htu

/-- Where the minute next to that of the origin is not in the calendar, no occurrence lies ahead. -/
theorem not_dueAhead_of_add?_eq_none (hz : z.Steady offset) {w : WallTime}
    (hw : z.read origin = .ok w) (hadd : w.startOfMinute.add? d.minute = none) :
    ¬ ∃ t, s.DueAhead z d origin t := by
  rintro ⟨t, hdue⟩
  obtain ⟨m, ⟨hm, -⟩, -, hpass⟩ := (dueAhead_iff hz).mp hdue
  obtain ⟨v, -, hvs, -⟩ := CivilMinute.exists_toWall? hm
  have hminute : w.startOfMinute.second = z.minuteAt origin.second := by
    change w.second - w.second % 60 = _
    rw [(Zone.read_eq_ok.mp hw).1]
    rfl
  have hmod := z.minuteAt_mod origin.second
  have := v.first_le
  have := v.le_last
  have := w.startOfMinute.first_le
  have := w.startOfMinute.le_last
  have hrange : firstSecond ≤ w.startOfMinute.second + d.sign * 60 ∧
      w.startOfMinute.second + d.sign * 60 ≤ lastSecond := by
    cases d <;> simp only [Direction.Passes, Direction.sign] at * <;> omega
  obtain ⟨start, hof, -⟩ :=
    Stamp.exists_of? .wall hrange.1 hrange.2 (show 0 < 2000000000 by decide)
  have hsome : w.startOfMinute.add? d.minute = some start :=
    (Stamp.add?_seconds Stamp.not_isLeap_startOfMinute _).trans hof
  rw [hadd] at hsome
  cases hsome

/-- **A search on a steady clock** comes to the nearest occurrence ahead, or leaves the calendar
where there is none. -/
theorem steady_outcome (hv : s.Valid) (hz : z.Steady offset) (d : Direction)
    (hin : offset = 0 ∨ origin.Inside 87600) :
    (∃ r, s.occurrence z d origin = .ok r ∧ s.NearestDue z d origin r) ∨
      s.occurrence z d origin = .error .outOfCalendar ∧ ¬ ∃ t, s.DueAhead z d origin t := by
  obtain ⟨w, hw⟩ := hz.exists_read (hin.imp_right fun h => h.mono (by decide))
  have hother := hz.otherPass?_eq_none d (hin.imp_right fun h => h.mono (by decide)) hw
  cases hadd : w.startOfMinute.add? d.minute with
  | none =>
    refine Or.inr ⟨bind_eq_error.mpr (Or.inr ⟨w, hw, bind_eq_error.mpr (Or.inl ?_)⟩),
      not_dueAhead_of_add?_eq_none hz hw hadd⟩
    rw [hadd]
    rfl
  | some start =>
    have hstart := (second_start hw hadd).2
    cases hseek : s.seek d maxCorrections start.civil with
    | ok c =>
      have hc := nearest_of_seek hv hseek
      have hoff := hz.offsetAt origin.second
      have hwithin := hz.within
      have hsign : d.sign.natAbs = 1 := by cases d <;> rfl
      obtain ⟨hminute, hminute'⟩ := z.minuteAt_le origin.second
      obtain ⟨t, hres, hdue⟩ := hc.nearestDue hz hstart (hin.imp_right fun ⟨hf, hl⟩ => by
        obtain ⟨c', hc', hfar⟩ := exists_seek_near hv d (t := start) ⟨by omega, by omega⟩
        obtain rfl : c = c' := Except.ok.inj (hseek.symm.trans hc')
        exact ⟨by omega, by omega⟩)
      exact Or.inl ⟨t, occurrence_eq_ok_iff.mpr ⟨w, start, t, hw, hadd,
        hc.firstPast_eq_ok hv hres, Or.inl ⟨hother, rfl⟩⟩, hdue⟩
    | error e =>
      have hfails : s.occurrence z d origin = .error e :=
        bind_eq_error.mpr (Or.inr ⟨w, hw, bind_eq_error.mpr (Or.inr ⟨start,
          orOutOfCalendar_eq_ok.mpr hadd,
          bind_eq_error.mpr (Or.inl (bind_eq_error.mpr (Or.inl hseek)))⟩)⟩)
      rcases seek_eq_error hv start.civil_inUse.exists hseek with rfl | ⟨rfl, -⟩
      · exact absurd hseek (seek_ne_stepsExhausted hv start.civil_inUse.exists)
      · refine Or.inr ⟨hfails, ?_⟩
        rintro ⟨t, hdue⟩
        obtain ⟨m, hm, -, hpass⟩ := (dueAhead_iff hz).mp hdue
        have hcand : s.Candidate d start.civil m := candidate_of_passes hm hpass (Or.inl hstart)
        obtain ⟨c, hc⟩ := exists_seek hv start.civil_inUse hm.1 hm.2 hcand.ahead
        rw [hseek] at hc
        cases hc

/-- On a steady clock an occurrence lies ahead of every search away from the ends of the
calendar. -/
theorem exists_dueAhead (hv : s.Valid) (hz : z.Steady offset) (d : Direction)
    (hin : origin.Inside 87600) : ∃ t, s.DueAhead z d origin t := by
  have hoff := hz.offsetAt origin.second
  have hwithin := hz.within
  have hsign : d.sign.natAbs = 1 := by cases d <;> rfl
  have hminute := z.minuteAt_le origin.second
  obtain ⟨hf, hl⟩ := hin
  have hf' : firstSecond ≤ z.minuteAt origin.second + d.sign * 60 := by omega
  have hl' : z.minuteAt origin.second + d.sign * 60 ≤ lastSecond := by omega
  obtain ⟨start, -, hstart, -⟩ := Stamp.exists_of? .wall hf' hl' (show 0 < 2000000000 by decide)
  obtain ⟨c, hc, hfar⟩ := exists_seek_near hv d (t := start) ⟨by omega, by omega⟩
  have hcand := (nearest_of_seek hv hc).candidate
  have hshown : c.number * 60 - offset + z.offsetAt (c.number * 60 - offset) = c.number * 60 := by
    rw [hz.offsetAt]
    omega
  obtain ⟨t, -, ht⟩ := Zone.exists_begins (by omega) (by omega) hshown
  exact ⟨t, (dueAhead_iff hz).mpr ⟨c, hcand.admitted, ht,
    passes_of_candidate hstart hcand⟩⟩

/-- A search on a steady clock finds an occurrence whenever one lies ahead, and leaves the calendar
exactly when none does. -/
theorem steady_total (hv : s.Valid) (hz : z.Steady offset) (d : Direction)
    (hin : offset = 0 ∨ origin.Inside 87600) :
    ((∃ t, s.DueAhead z d origin t) →
      ∃ r, s.occurrence z d origin = .ok r ∧ s.NearestDue z d origin r) ∧
    (s.occurrence z d origin = .error .outOfCalendar ↔ ¬ ∃ t, s.DueAhead z d origin t) := by
  rcases steady_outcome hv hz d hin with ⟨r, hr, hnearest⟩ | ⟨herr, hnone⟩
  · refine ⟨fun _ => ⟨r, hr, hnearest⟩, fun herr => ?_, fun hnone => ?_⟩
    · rw [hr] at herr
      cases herr
    · exact absurd ⟨r, hnearest.toDueAhead⟩ hnone
  · exact ⟨fun hdue => absurd hdue hnone, fun _ => hnone, fun _ => herr⟩

/-- **On a clock that is never changed a search agrees with a scan.**  In universal time it comes
to the nearest occurrence ahead whenever there is one, and leaves the calendar exactly when there
is none; so it does on any clock without an offset.  On a clock with an offset it comes to the
nearest occurrence from every origin ten years inside the calendar. -/
theorem occurrence_nearestDue {expression : String} (hs : parse expression = .ok s)
    (d : Direction) (origin : Instant) :
    (((∃ t, s.DueAhead Zone.utc d origin t) →
        ∃ r, s.occurrenceIn none d origin = .ok r ∧ s.NearestDue Zone.utc d origin r) ∧
      (s.occurrenceIn none d origin = .error (.search .outOfCalendar) ↔
        ¬ ∃ t, s.DueAhead Zone.utc d origin t)) ∧
    ∀ (z : Zone) (offset : Int), z.Steady offset →
      (offset = 0 →
        ((∃ t, s.DueAhead z d origin t) →
          ∃ r, s.occurrence z d origin = .ok r ∧ s.NearestDue z d origin r) ∧
        (s.occurrence z d origin = .error .outOfCalendar ↔ ¬ ∃ t, s.DueAhead z d origin t)) ∧
      (origin.Inside 87600 →
        ∃ r, s.occurrence z d origin = .ok r ∧ s.NearestDue z d origin r) := by
  have hv := valid_of_parse hs
  have hutc : ∀ {x}, s.occurrence Zone.utc d origin = x →
      s.occurrenceIn none d origin = x.mapError .search := by
    rintro x rfl
    rfl
  refine ⟨⟨fun hdue => ?_, fun herr => ?_, fun hnone => ?_⟩, fun z offset hz => ⟨?_, fun hin => ?_⟩⟩
  · obtain ⟨r, hr, hnearest⟩ := (steady_total hv Zone.steady_utc d (Or.inl rfl)).1 hdue
    exact ⟨r, hutc hr, hnearest⟩
  · rintro hdue
    obtain ⟨r, hr, -⟩ := (steady_total hv Zone.steady_utc d (Or.inl rfl)).1 hdue
    rw [hutc hr] at herr
    cases herr
  · exact hutc ((steady_total hv Zone.steady_utc d (Or.inl rfl)).2.mpr hnone)
  · rintro rfl
    exact steady_total hv hz d (Or.inl rfl)
  · exact (steady_total hv hz d (Or.inr hin)).1 (exists_dueAhead hv hz d hin)

/-- From within the leap second at the end of 2016 a search forward comes to the next minute of a
clock that is five hours, 45 minutes and half a minute ahead, and one backward to the last minute
before in universal time. -/
theorem occurrence_nearestDue_leapSecond : ∃ s, parse "* * * * *" = .ok s ∧
    ∃ (z : Zone) (origin : Instant), z.Steady 20730 ∧
      (origin.second = 1483228799 ∧ origin.nano = 1500000000) ∧
      (∃ r, s.occurrence z .forward origin = .ok r ∧ s.NearestDue z .forward origin r) ∧
      (∃ r, s.occurrence Zone.utc .forward origin = .ok r ∧
        s.NearestDue Zone.utc .forward origin r) ∧
      ∃ r, s.occurrenceIn none .backward origin = .ok r ∧
        s.NearestDue Zone.utc .backward origin r := by
  obtain ⟨s, hs, -⟩ := exists_of_parse "* * * * *" (fun _ => True) (by decide +kernel)
  have hz : Zone.Steady ⟨"Half a minute past", 20730, []⟩ 20730 := ⟨by decide, fun _ => rfl⟩
  have hin : Stamp.Inside (⟨1483228799, 1500000000, by decide, by decide, by decide⟩ : Instant)
    87600 := by decide
  have hv := valid_of_parse hs
  exact ⟨s, hs, _, _, hz, ⟨rfl, rfl⟩, ((occurrence_nearestDue hs .forward _).2 _ _ hz).2 hin,
    (((occurrence_nearestDue hs .forward _).2 _ _ Zone.steady_utc).1 rfl).1
      (exists_dueAhead hv Zone.steady_utc .forward hin),
    (occurrence_nearestDue hs .backward _).1.1
      (exists_dueAhead hv Zone.steady_utc .backward hin)⟩

end Schedule

end Crontab
