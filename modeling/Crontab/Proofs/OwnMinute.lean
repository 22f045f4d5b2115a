import Crontab.Proofs.FarFromGaps
import Crontab.Proofs.Precision

/-! # Searches that come back to their own minute

A search backward sets out from the minute before the one that the clock shows.  From within a
minute it still comes to the start of that minute by two ways (`Schedule.ComesBack`).  In the
second pass of a fold it sets out once more from before the turn, where the clock shows later
minutes, and goes back to its own.  And where the clock has been put forward, the start of its own
minute may stand in for a minute passed over.

In a regular zone whose clocks keep to whole minutes there is no third way
(`Schedule.previous_eq_start_iff`), so there **the seconds of the origin matter exactly where a
search comes back** (`Schedule.occurrence_precision`).
-/

namespace Crontab

open Outcome

/-- The minute that a point lies in is settled by its second. -/
theorem Stamp.civil_congr {clock other : Clock} {t : Stamp clock} {u : Stamp other}
    (h : t.second = u.second) : t.civil = u.civil := by
  simp only [Stamp.civil, Stamp.secondOfDay, h]

namespace Zone

variable {z : Zone} {a b : Instant}

/-- The clock shows one minute all through a minute. -/
theorem KeepsMinutes.minuteAt_congr (hz : z.KeepsMinutes) (h : a.startOfMinute = b.startOfMinute) :
    z.minuteAt a.second = z.minuteAt b.second := by
  have hab := Stamp.startOfMinute_eq_iff.mp h
  have hoff := hz.offsetAt_congr h
  have hwhole := hz.offset_whole b.second
  unfold minuteAt
  omega

theorem KeepsMinutes.minuteAt_of_onMinute (hz : z.KeepsMinutes) (ha : a.OnMinute) :
    z.minuteAt a.second = a.second + z.offsetAt a.second := by
  have hwhole := hz.offset_whole a.second
  have hs := (Stamp.onMinute_iff.mp ha).1
  unfold minuteAt
  omega

/-- From later in the minute that `a` starts, what `a` begins is taken at `a`: nothing that starts
a minute lies between the two. -/
theorem WholeMinutes.resolves_of_begins (hz : z.WholeMinutes)
    (h : a.startOfMinute = b.startOfMinute) (ha : a.OnMinute) (hb : ¬ b.OnMinute)
    {m : CivilMinute} (hm : m.InUse) (hf : firstSecond + 180000 ≤ m.number * 60)
    (hl : m.number * 60 ≤ lastSecond - 180000) (hbegins : z.Begins a m) :
    z.Resolves .backward b m (some a) := by
  have hpast : Direction.backward.Past b a :=
    (Direction.lt_iff_lt_or_eq_start h ha hb ha).mpr (Or.inr rfl)
  obtain ⟨x, hx, -, hfirst⟩ := hz.toRegular.nearest_begins hm hf hl hbegins hpast
  have honMinute := hz.keepsMinutes.onMinute_of_resolves hx
  have hxb := (Direction.lt_iff_lt_or_eq_start h ha hb honMinute).mp hx.past
  rcases hfirst a hbegins hpast with rfl | hlt
  · exact hx
  · rcases hxb with hxa | rfl
    · exact absurd (Stamp.lt_trans hxa hlt) (Stamp.lt_irrefl x)
    · exact hx

end Zone

namespace Schedule

variable {s : Schedule} {z : Zone} {a b x : Instant} {m m' : CivilMinute}
  {start restart w : WallTime} {turn second : Int}

/-- **How a search backward from within the minute that starts at `a` comes back to `a`.**  In the
second pass of a fold, `a` begins the last admitted minute before the turn.  Otherwise `a` stands in
for one of the nearest admitted minutes before its own, and what stands in for those between comes
after `a`. -/
inductive ComesBack (s : Schedule) (z : Zone) (a : Instant) : Prop
  | secondPass (turn : Int) (m : CivilMinute) : z.ShowsTwice turn (m.number * 60) →
      turn ≤ a.second → z.Begins a m → m.InUse ∧ s.admits m = true →
      (∀ m' : CivilMinute, m'.InUse ∧ s.admits m' = true → m.number < m'.number →
        turn + z.offsetAt (turn - 1) ≤ m'.number * 60) → ComesBack s z a
  | standIn (turn : Int) (m : CivilMinute) (start : WallTime) : s.StandsIn z turn m a →
      start.second = z.minuteAt a.second - 60 →
      s.AmongNearest .backward maxAttempts start.civil m →
      (∀ m' : CivilMinute, m'.InUse ∧ s.admits m' = true → m.number < m'.number →
        m'.number * 60 < z.minuteAt a.second →
        ∃ turn' x, s.StandsIn z turn' m' x ∧ a < x) → ComesBack s z a

theorem StandsIn.onMinute (hz : z.KeepsMinutes) (h : s.StandsIn z turn m x) : x.OnMinute := by
  obtain ⟨w, hw, hshow⟩ := h.showing
  obtain ⟨hws, hwn, -⟩ := CivilMinute.figures_of_toWall? hw
  exact hz.onMinute_of_showing (Stamp.onMinute_iff.mpr ⟨by omega, hwn⟩) hshow List.mem_cons_self

/-- A minute for which a search backward takes nothing, although the clock has gone past it, is
passed over and has its stand-in too late. -/
theorem standsIn_of_resolves_none (hz : z.Regular) (hm : m.InUse ∧ s.admits m = true)
    (hf : firstSecond + 180000 ≤ m.number * 60) (hl : m.number * 60 ≤ lastSecond - 180000)
    (hle : second ≤ b.second) (h : m.number * 60 < second + z.offsetAt second)
    (hnone : z.Resolves .backward b m none) : ∃ turn x, s.StandsIn z turn m x ∧ ¬ x < b := by
  by_cases hbegins : ∃ u, z.Begins u m
  · exfalso
    obtain ⟨u, hu⟩ := hbegins
    obtain ⟨t, ht, hlt : t.second < second⟩ := hz.exists_begins_passes (d := .backward) hf hl hu h
    have hpast : Direction.backward.Past b t := Stamp.lt_def.mpr (by omega)
    obtain ⟨x, hx, -⟩ := hz.nearest_begins hm.1 hf hl ht hpast
    cases hx.unique hnone
  · obtain ⟨turn, hover, -, w, x, hw, hx⟩ := hz.passesOver hm.1 hf hl fun u hu => hbegins ⟨u, hu⟩
    have hstand : s.StandsIn z turn m x := ⟨hover, hm, w, hw, hx⟩
    refine ⟨turn, x, hstand, fun hlt => ?_⟩
    cases (hstand.resolves (d := .backward) hlt).unique hnone

/-! ### A search that finds the start of its minute -/

/-- The first attempts come back only to a stand-in. -/
theorem comesBack_of_firstPast (hv : s.Valid) (hz : z.WholeMinutes) (hin : a.Inside 96)
    (h : a.startOfMinute = b.startOfMinute) (ha : a.OnMinute) (hb : ¬ b.OnMinute)
    (hstart : start.second = z.minuteAt b.second - 60)
    (hfound : s.firstPast z .backward b maxAttempts start = .ok a) : s.ComesBack z a := by
  have hkeeps := hz.keepsMinutes
  have hown := hkeeps.minuteAt_of_onMinute ha
  have hsame := hkeeps.minuteAt_congr h
  have hmin := z.minuteAt_le b.second
  obtain ⟨hf, hl⟩ := hin
  have ho := hz.within a.second
  obtain ⟨m, hfinds, hamong⟩ := (firstPast_eq_ok_iff hv).mp hfound
  obtain ⟨hm, hreach⟩ := candidate_iff.mp hfinds.candidate
  simp only [Direction.Reaches] at hreach
  obtain ⟨-, hnear⟩ := hfinds.resolves.nearby hz.within
  rcases begins_or_standsIn hz.toRegular hm (by omega) (by omega) hfinds.resolves with
    hbegins | ⟨turn, hstand⟩
  · have := hbegins.2
    omega
  · refine .standIn turn m start hstand (by omega) hamong fun m' hm' hlt hbefore => ?_
    have hcand : s.Candidate .backward start.civil m' := by
      refine candidate_iff.mpr ⟨hm', ?_⟩
      have := z.minuteAt_mod a.second
      simp only [Direction.Reaches]
      omega
    obtain ⟨turn', x, hx, hnot⟩ := standsIn_of_resolves_none hz.toRegular hm' (by omega) (by omega)
      (Int.le_refl b.second) (by omega) (hfinds.before m' hcand hlt)
    exact ⟨turn', x, hx, (Direction.not_lt_iff_start_lt h ha hb (hx.onMinute hkeeps)).mp hnot⟩

/-- **Setting out once more a search comes back only to the last minute before the turn.** -/
theorem comesBack_of_restart (hv : s.Valid) (hz : z.WholeMinutes) (hin : b.Inside 96)
    (h : a.startOfMinute = b.startOfMinute) (ha : a.OnMinute) (hw : z.read b = .ok w)
    (hother : z.otherPass? .backward b w.startOfMinute = .ok (some restart))
    (hfound : s.firstPast z .backward b maxAttempts restart = .ok a) : s.ComesBack z a := by
  have hkeeps := hz.keepsMinutes
  have hreg := hz.toRegular
  have hown := hkeeps.minuteAt_of_onMinute ha
  have hsame := hkeeps.minuteAt_congr h
  have hab := Stamp.startOfMinute_eq_iff.mp h
  have hmin := z.minuteAt_le b.second
  obtain ⟨turn, htwice, hmeets, hrestart⟩ := hreg.turn_of_otherPass? hin hw hother
  have hwhole := hz.turn_whole turn htwice.changes
  have hoff := hz.offset_whole (turn - 1)
  have hshown : w.startOfMinute.second = z.minuteAt b.second := by
    have hws := (Zone.read_eq_ok.mp hw).1
    change w.second - w.second % 60 = _
    rw [hws]
    rfl
  rw [hshown] at htwice
  simp only [Direction.Meets, Zone.restartAt] at hmeets hrestart
  have hclose := htwice.near hreg (u := b.second) (by omega) (by omega)
  obtain ⟨hf, hl⟩ := hin
  have ho := hz.within a.second
  obtain ⟨m, hfinds⟩ := finds_of_firstPast hv hfound
  obtain ⟨hm, -⟩ := candidate_iff.mp hfinds.candidate
  obtain ⟨-, hnear⟩ := hfinds.resolves.nearby hz.within
  rcases begins_or_standsIn hreg hm (by omega) (by omega) hfinds.resolves with
    hbegins | ⟨turn', hstand⟩
  · have hbs := hbegins.2
    have hnumber : m.number * 60 = z.minuteAt b.second := by omega
    refine .secondPass turn m (hnumber ▸ htwice) (by omega) hbegins hm fun m' hm' hlt => ?_
    apply Int.not_lt.mp
    intro hbefore
    -- the clock shows the minute before the turn, so the search would have found it there
    have hcand : s.Candidate .backward restart.civil m' := by
      refine candidate_iff.mpr ⟨hm', ?_⟩
      simp only [Direction.Reaches]
      omega
    have hbound := hz.within (turn - 1)
    obtain ⟨turn', x, hx, -⟩ := standsIn_of_resolves_none hreg hm' (by omega) (by omega)
      (show turn - 1 ≤ b.second by omega) (by omega) (hfinds.before m' hcand hlt)
    have hover := hx.passesOver
    have := hover.near hz.within
    have := htwice.before
    exact htwice.not_passesOver hreg (by omega) hover
  · have := hstand.turn_near hz.within
    exact absurd hstand.passesOver (htwice.not_passesOver hreg (by omega))

/-! ### The start of a minute that is found -/

/-- In the second pass of a fold a search finds the last minute before the turn, its own. -/
theorem previous_of_secondPass (hv : s.Valid) (hz : z.WholeMinutes) (hin : b.Inside 240000)
    (h : a.startOfMinute = b.startOfMinute) (ha : a.OnMinute) (hb : ¬ b.OnMinute)
    (htwice : z.ShowsTwice turn (m.number * 60)) (hbehind : turn ≤ a.second)
    (hbegins : z.Begins a m)
    (hm : m.InUse ∧ s.admits m = true)
    (hlast : ∀ m' : CivilMinute, m'.InUse ∧ s.admits m' = true → m.number < m'.number →
      turn + z.offsetAt (turn - 1) ≤ m'.number * 60) : s.previous z b = .ok a := by
  have hkeeps := hz.keepsMinutes
  have hreg := hz.toRegular
  have hown := hkeeps.minuteAt_of_onMinute ha
  have hsame := hkeeps.minuteAt_congr h
  have hab := Stamp.startOfMinute_eq_iff.mp h
  have hnumber : m.number * 60 = z.minuteAt b.second := by
    have := hbegins.2
    omega
  have hwhole := hz.turn_whole turn htwice.changes
  have hoff := hz.offset_whole (turn - 1)
  have hbefore := htwice.before
  rw [hnumber] at htwice
  have hfold := htwice.near hreg (z.minuteAt_le b.second).1 (z.minuteAt_le b.second).2
  obtain ⟨r, hr : s.previous z b = .ok r, -⟩ := exists_occurrence hv hreg .backward hin
    (htwice.noGapAround hreg (by omega) (by omega))
  obtain ⟨w, start, found, hw, hstart, hfound, hend⟩ := occurrence_eq_ok_iff.mp hr
  have hshown := (second_start hw hstart).1
  have ho := hz.within b.second
  have hmin := z.minuteAt_le b.second
  obtain ⟨restart, hother, hrestart⟩ := hreg.exists_restart (d := .backward)
    (hin.mono (by decide)) hw (hshown ▸ htwice) (show turn ≤ b.second by omega)
  simp only [Zone.restartAt] at hrestart
  obtain ⟨hf, hl⟩ := hin
  -- the minute is the nearest before the turn, and `a` the last instant at which it begins
  have hnearest : s.Nearest .backward restart.civil m := by
    refine ⟨candidate_iff.mpr ⟨hm, ?_⟩, fun m' hm' => ?_⟩
    · simp only [Direction.Reaches]
      omega
    · obtain ⟨hadm', hreach⟩ := candidate_iff.mp hm'
      simp only [Direction.Reaches] at hreach ⊢
      apply Int.not_lt.mp
      intro hlt
      have := hlast m' hadm' hlt
      omega
  have hagain : s.firstPast z .backward b maxAttempts restart = .ok a :=
    hnearest.firstPast_eq_ok hv
      (hz.resolves_of_begins h ha hb hm.1 (by omega) (by omega) hbegins)
  rcases hend with ⟨hnone, -⟩ | ⟨restart', again, hother', hagain', rfl⟩
  · rw [hother] at hnone
    cases hnone
  · rw [hother] at hother'
    cases hother'
    rw [hagain] at hagain'
    cases hagain'
    rw [hr, Direction.nearer_eq_right (eq_start_or_lt hv hkeeps h ha hb hfound)]

/-- A search finds the start of its minute where that stands in for a minute passed over. -/
theorem previous_of_standIn (hv : s.Valid) (hz : z.WholeMinutes) (hin : b.Inside 240000)
    (h : a.startOfMinute = b.startOfMinute) (ha : a.OnMinute) (hb : ¬ b.OnMinute)
    (hstand : s.StandsIn z turn m a) (hstart : start.second = z.minuteAt a.second - 60)
    (hamong : s.AmongNearest .backward maxAttempts start.civil m)
    (hlate : ∀ m' : CivilMinute, m'.InUse ∧ s.admits m' = true → m.number < m'.number →
      m'.number * 60 < z.minuteAt a.second → ∃ turn' x, s.StandsIn z turn' m' x ∧ a < x) :
    s.previous z b = .ok a := by
  have hkeeps := hz.keepsMinutes
  have hsame := hkeeps.minuteAt_congr h
  have hab := Stamp.startOfMinute_eq_iff.mp h
  have hba : a < b := (Direction.lt_iff_lt_or_eq_start h ha hb ha).mpr (Or.inr rfl)
  have hmin := z.minuteAt_le b.second
  have hin48 : b.Inside 48 := hin.mono (by decide)
  obtain ⟨w, start', hw, hadd, hshown, hs⟩ := exists_start hz.within .backward hin48
  have hsign : Direction.backward.sign = -1 := rfl
  rw [Stamp.civil_congr (show start.second = start'.second by omega)] at hamong
  have hfound : s.firstPast z .backward b maxAttempts start' = .ok a := by
    refine (firstPast_eq_ok_iff hv).mpr
      ⟨m, ⟨hamong.1, hstand.resolves hba, fun m' hm' hlt => ?_⟩, hamong⟩
    obtain ⟨hadm', hreach⟩ := candidate_iff.mp hm'
    simp only [Direction.Reaches] at hreach
    obtain ⟨turn', x, hx, hax⟩ := hlate m' hadm' hlt (by omega)
    obtain ⟨w', hw', hshow⟩ := hx.showing
    refine ⟨w', [x], hw', hshow, Direction.pick_eq_none_iff.mpr fun t ht => ?_⟩
    rw [List.mem_singleton.mp ht]
    exact (Direction.not_lt_iff_start_lt h ha hb (hx.onMinute hkeeps)).mpr hax
  have hin' : w.startOfMinute.Inside 96 := by
    have := hz.within b.second
    obtain ⟨hf, hl⟩ := hin
    exact ⟨by omega, by omega⟩
  obtain ⟨other, hother, -⟩ :=
    Zone.exists_otherPass hz.within .backward b hin' Stamp.not_isLeap_startOfMinute
  cases other with
  | none => exact occurrence_eq_ok_iff.mpr ⟨w, start', a, hw, hadd, hfound, Or.inl ⟨hother, rfl⟩⟩
  | some restart =>
    exfalso
    obtain ⟨turn', htwice, -, -⟩ := hz.turn_of_otherPass? (hin.mono (by decide)) hw hother
    rw [hshown] at htwice
    have := htwice.near hz.toRegular (u := b.second) (by omega) (by omega)
    have := hstand.turn_near hz.within
    exact htwice.not_passesOver hz.toRegular (by omega) hstand.passesOver

/-- **A search backward from within a minute finds the start of that minute exactly where it comes
back to it.** -/
theorem previous_eq_start_iff (hv : s.Valid) (hz : z.WholeMinutes) (hin : b.Inside 240000)
    (h : a.startOfMinute = b.startOfMinute) (ha : a.OnMinute) (hb : ¬ b.OnMinute) :
    s.previous z b = .ok a ↔ s.ComesBack z a := by
  constructor
  · intro hr
    obtain ⟨w, start, found, hw, hadd, hfound, hend⟩ := occurrence_eq_ok_iff.mp hr
    have hstart := (second_start hw hadd).2
    have hin' : a.Inside 96 := by
      have hab := Stamp.startOfMinute_eq_iff.mp h
      obtain ⟨hf, hl⟩ := hin
      exact ⟨by omega, by omega⟩
    have hfirst : s.firstPast z .backward b maxAttempts start = .ok a → s.ComesBack z a :=
      comesBack_of_firstPast hv hz hin' h ha hb hstart
    rcases hend with ⟨-, rfl⟩ | ⟨restart, again, hother, hagain, he⟩
    · exact hfirst hfound
    · rcases Direction.nearer_eq .backward found again with hn | hn
      · exact hfirst (by rw [he, hn]; exact hfound)
      · exact comesBack_of_restart hv hz (hin.mono (by decide)) h ha hw hother
          (by rw [he, hn]; exact hagain)
  · rintro (⟨turn, m, htwice, hbehind, hbegins, hm, hlast⟩ |
      ⟨turn, m, start, hstand, hstart, hamong, hlate⟩)
    · exact previous_of_secondPass hv hz hin h ha hb htwice hbehind hbegins hm hlast
    · exact previous_of_standIn hv hz hin h ha hb hstand hstart hamong hlate

/-- Away from the ends of the calendar searches fail alike. -/
theorem previous_eq_of_runs (hv : s.Valid) (hz : z.WithinDay) (ha : a.Inside 240000)
    (hb : b.Inside 240000) (h : ∀ r, s.previous z a = .ok r ↔ s.previous z b = .ok r) :
    s.previous z a = s.previous z b := by
  rcases occurrence_outcome hv hz .backward ha with ⟨⟨r, hr, -⟩, -⟩ | ⟨herr, -⟩
  · exact hr.trans ((h r).mp hr).symm
  · rcases occurrence_outcome hv hz .backward hb with ⟨⟨r, hr, -⟩, -⟩ | ⟨herr', -⟩
    · cases herr.symm.trans ((h r).mpr hr)
    · exact herr.trans herr'.symm

/-- **Where the seconds of the origin matter**, on clocks that keep to whole minutes.  To a search
forward they never matter.  To a search backward they matter only in that the origin may be the
start of its minute or not, and then only if the search finds that start.  In a regular zone that is
where it comes back to its own minute. -/
theorem occurrence_precision {expression : String} (hs : parse expression = .ok s)
    (hz : z.KeepsMinutes) (h : a.startOfMinute = b.startOfMinute) :
    s.next z a = s.next z b ∧
    ((a.OnMinute ↔ b.OnMinute) → s.previous z a = s.previous z b) ∧
    (a.OnMinute → ¬ b.OnMinute →
      ((∀ r, s.previous z a = .ok r ↔ s.previous z b = .ok r) ↔ s.previous z b ≠ .ok a) ∧
      (z.Regular → a.Inside 240000 →
        (s.previous z a = s.previous z b ↔ ¬ s.ComesBack z a))) := by
  have hv := valid_of_parse hs
  refine ⟨?_, fun hiff => ?_, fun ha hb => ⟨previous_congr_iff hv hz h ha hb, fun hreg hin => ?_⟩⟩
  · exact occurrence_congr hz h fun t ht => Direction.past_congr h nofun ht
  · exact occurrence_congr hz h fun t ht => Direction.past_congr h (fun _ => hiff) ht
  · have hab := Stamp.startOfMinute_eq_iff.mp h
    have hsecond := (Stamp.onMinute_iff.mp ha).1
    have hin' : b.Inside 240000 := by
      unfold Stamp.Inside firstSecond lastSecond at *
      omega
    rw [← previous_eq_start_iff hv ⟨hreg, hz.offset_whole, hz.turn_whole⟩ hin' h ha hb]
    have hruns := previous_congr_iff hv hz h ha hb
    constructor
    · intro heq
      exact hruns.mp fun r => by rw [heq]
    · intro hown
      exact previous_eq_of_runs hv hreg.within hin hin' (hruns.mpr hown)

theorem wholeMinutes_troll : Zone.troll.WholeMinutes := by
  -- one evaluation of the list of transitions for all that is asked of it
  obtain ⟨hoffsets, hapart, hwhole, hturns⟩ :
      (∀ o ∈ Zone.troll.initial :: Zone.troll.transitions.map Transition.offset,
        (-86400 < o ∧ o < 86400) ∧ 0 ≤ o ∧ o ≤ 0 + 43200) ∧
      Zone.farApart Zone.troll.transitions = true ∧
      (∀ o ∈ Zone.troll.initial :: Zone.troll.transitions.map Transition.offset, o % 60 = 0) ∧
      ∀ t ∈ Zone.troll.transitions, t.second % 60 = 0 := by decide +kernel
  exact Zone.wholeMinutes_of_transitions 0 hoffsets hapart hwhole hturns

/-- On 25 October 2026 the clocks of Troll are put back from three to one.  In the second pass half
past one is found from half a minute later, but from half past one itself only in the first
pass. -/
theorem previous_troll : ∃ s, parse "30 1 * * *" = .ok s ∧ ∃ a b r : Instant,
    (a.second = 1792891800 ∧ b.second = 1792891830 ∧ r.second = 1792884600) ∧
      a.startOfMinute = b.startOfMinute ∧ (a.OnMinute ∧ ¬ b.OnMinute) ∧ r ≠ a ∧
      s.previous Zone.troll a = .ok r ∧ s.previous Zone.troll b = .ok a := by
  obtain ⟨s, hs, hstart, hwithin⟩ := exists_of_parse "30 1 * * *" (fun s =>
      s.previous Zone.troll ⟨1792891800, 0, by decide, by decide, by decide⟩ =
        .ok ⟨1792884600, 0, by decide, by decide, by decide⟩ ∧
      s.previous Zone.troll ⟨1792891830, 0, by decide, by decide, by decide⟩ =
        .ok ⟨1792891800, 0, by decide, by decide, by decide⟩) (by decide +kernel)
  exact ⟨s, hs, _, _, _, ⟨rfl, rfl, rfl⟩, by decide, by decide, by decide, hstart, hwithin⟩

/-- In Troll the search comes back to its own minute. -/
theorem occurrence_precision_troll : ∃ s, parse "30 1 * * *" = .ok s ∧ ∃ a b : Instant,
    (a.second = 1792891800 ∧ b.second = 1792891830) ∧ a.startOfMinute = b.startOfMinute ∧
      s.next Zone.troll a = s.next Zone.troll b ∧ s.ComesBack Zone.troll a := by
  obtain ⟨s, hs, a, b, r, ⟨has, hbs, -⟩, h, ⟨ha, hb⟩, hne, hstart, hwithin⟩ := previous_troll
  obtain ⟨hnext, -, hlast⟩ := occurrence_precision hs wholeMinutes_troll.keepsMinutes h
  have hin : a.Inside 240000 := by
    unfold Stamp.Inside firstSecond lastSecond
    omega
  refine ⟨s, hs, a, b, ⟨has, hbs⟩, h, hnext, Classical.byContradiction fun hnot => hne ?_⟩
  have heq := ((hlast ha hb).2 wholeMinutes_troll.toRegular hin).mpr hnot
  exact Except.ok.inj (hstart.symm.trans (heq.trans hwithin))

/-- **The seconds of the origin matter to a search backward** in the second pass of a fold. -/
theorem previous_reads_seconds : Zone.troll.KeepsMinutes ∧ ∃ s, parse "30 1 * * *" = .ok s ∧
    ∃ a b : Instant, (a.second = 1792891800 ∧ b.second = 1792891830) ∧
      a.startOfMinute = b.startOfMinute ∧ s.previous Zone.troll a ≠ s.previous Zone.troll b := by
  obtain ⟨s, hs, a, b, r, ⟨has, hbs, -⟩, h, -, hne, hstart, hwithin⟩ := previous_troll
  refine ⟨wholeMinutes_troll.keepsMinutes, s, hs, a, b, ⟨has, hbs⟩, h, ?_⟩
  rw [hstart, hwithin]
  exact fun he => hne (Except.ok.inj he)

end Schedule

end Crontab
