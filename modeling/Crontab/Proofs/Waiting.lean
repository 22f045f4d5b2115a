import Crontab.Proofs.Later
import Crontab.Zone.Table

/-! # Asking again while waiting

Whoever waits for the next run and asks again before it comes (`Waits`) should be told the same
run.  **The answer changes only if it stands in for a minute that the clock has meanwhile been put
forward past** (`Schedule.next_again_iff`): the search that sets out beyond the turn does not come
to that minute, and finds the instant again only where it is an occurrence in its own right.

While the turn of the answer does not pass, the search that asks again comes to the minute of the
answer: straight from its origin (`Schedule.firstPast_again`), even if the earlier search had to
set out once more for it from a fold that is behind now (`Schedule.firstPast_again_of_fold`).
While both wait in the first pass of a fold, either way stays open
(`Schedule.next_again_in_fold`).
-/

namespace Crontab

open Outcome

/-- **One waits for an answer**: a question asked at `origin` is asked again at `wake`, before the
answer `r` comes. -/
structure Waits (origin wake r : Instant) : Prop where
  asked : origin ≤ wake
  pending : wake < r
  origin_inside : origin.Inside 144
  answer_inside : r.Inside 144

namespace Waits

variable {origin wake r : Instant}

theorem wake_inside (h : Waits origin wake r) : wake.Inside 144 := by
  obtain ⟨how, hwr, ⟨hf, hl⟩, hf', hl'⟩ := h
  rw [Stamp.le_def] at how
  rw [Stamp.lt_def] at how hwr
  exact ⟨by omega, by omega⟩

theorem second_le (h : Waits origin wake r) : origin.second ≤ wake.second := by
  have how := h.asked
  rw [Stamp.le_def, Stamp.lt_def] at how
  omega

end Waits

namespace Schedule

variable {s : Schedule} {z : Zone} {origin wake r x y : Instant} {m : CivilMinute}
  {start start' restart : WallTime} {turn : Int}

/-- **The turn that the answer comes from passes while one waits for it.** -/
def PassesTurn (s : Schedule) (z : Zone) (origin wake r : Instant) : Prop :=
  ∃ turn m, s.StandsIn z turn m r ∧ origin.second < turn ∧ turn ≤ wake.second

/-- **The clock does not go past the minute of the answer** while its turn does not pass. -/
theorem Finds.passes_of_waits (hz : z.Regular) (hw : Waits origin wake r) {start : CivilMinute}
    (h : s.Finds z .forward origin start m r)
    (hpass : z.minuteAt origin.second < m.number * 60)
    (hno : ¬ s.PassesTurn z origin wake r) : z.minuteAt wake.second < m.number * 60 := by
  rcases h.passes_or_passesOver hz (hw.origin_inside.mono (by decide))
    (hw.wake_inside.mono (by decide)) hpass hw.asked hw.pending with hstill | ⟨turn, hover, hot, htw⟩
  · exact hstill
  exfalso
  have hm : m.InUse ∧ s.admits m = true := ⟨h.candidate.inUse, h.candidate.admits⟩
  have hfar := (h.resolves.nearby hz.within).2
  obtain ⟨hf, hl⟩ := hw.answer_inside
  rcases begins_or_standsIn hz hm (by omega) (by omega) h.resolves with hb | ⟨_, hx⟩
  · exact hover.not_begins hz.toSpaced r hb
  · exact hno ⟨turn, m, ⟨hover, hm, hx.showing⟩, hot, htw⟩

/-! ### The turn of the answer does not pass -/

/-- **Where no fold is ahead** the search that asks again finds the answer straight from its
origin. -/
theorem firstPast_again (hv : s.Valid) (hz : z.Regular) (hw : Waits origin wake r)
    (hno : ¬ s.PassesTurn z origin wake r)
    (hfold : ∀ turn, z.ShowsTwice turn (z.minuteAt origin.second) → ¬ origin.second < turn)
    (hstart : start.second = z.minuteAt origin.second + 60)
    (hstart' : start'.second = z.minuteAt wake.second + 60)
    (h : s.firstPast z .forward origin maxAttempts start = .ok r) :
    s.firstPast z .forward wake maxAttempts start' = .ok r := by
  -- the clock has not been put back to before the minute from which the search set out
  have hle : z.minuteAt origin.second ≤ z.minuteAt wake.second := by
    apply Int.not_lt.mp
    intro hlt
    obtain ⟨hminute, -⟩ := z.minuteAt_le origin.second
    obtain ⟨-, hwake⟩ := z.minuteAt_le wake.second
    have h1 := z.minuteAt_mod origin.second
    have h2 := z.minuteAt_mod wake.second
    have hsec := hw.second_le
    have hne : origin.second ≠ wake.second := by
      intro he
      rw [he] at hlt
      omega
    obtain ⟨turn, ⟨hot, -⟩, htwice⟩ := hz.exists_showsTwice (a := origin.second)
      (b := wake.second) (by omega) (by omega) hminute
    exact hfold turn htwice hot
  refine firstPast_later hv hw.asked hw.pending (fun k hk => ?_) (fun m hm => ?_) h
  · have hpass := passes_of_candidate (d := .forward) hstart' hk
    exact candidate_of_passes (d := .forward) hk.admitted (Int.lt_of_le_of_lt hle hpass)
      (Or.inl hstart)
  · have hpass := passes_of_candidate (d := .forward) hstart hm.candidate
    exact candidate_of_passes (d := .forward) hm.candidate.admitted
      (hm.passes_of_waits hz hw hpass hno) (Or.inl hstart')

/-- **In the first pass of a fold** the search that asks again has both ways of the earlier one. -/
theorem next_again_in_fold (hv : s.Valid) (hz : z.Regular) (hw : Waits origin wake r)
    (htwice : z.ShowsTwice turn (z.minuteAt origin.second)) (hwt : wake.second < turn)
    (hstart : start.second = z.minuteAt origin.second + 60)
    (hrestart : restart.second = z.restartAt .forward turn)
    (hx : s.firstPast z .forward origin maxAttempts start = .ok x) (hwx : wake < x)
    (hy : s.firstPast z .forward origin maxAttempts restart = .ok y) (hwy : wake < y) :
    s.next z wake = .ok (Direction.forward.nearer x y) := by
  have hc := htwice.changes
  have hnear := htwice.near hz (z.minuteAt_le origin.second).1 (z.minuteAt_le origin.second).2
  have hsec := hw.second_le
  have hin96 := hw.wake_inside.mono (show 96 ≤ 144 by decide)
  obtain ⟨w, start', hread, hadd, hshown, hstart'⟩ :=
    exists_start hz.within .forward (hw.wake_inside.mono (show 48 ≤ 144 by decide))
  have h1 := hz.offsetAt_before hc (u := origin.second) (by omega) (by omega)
  have h2 := hz.offsetAt_before hc (u := wake.second) (by omega) hwt
  have hle : z.minuteAt origin.second ≤ z.minuteAt wake.second := by
    unfold Zone.minuteAt
    omega
  have htwice' : z.ShowsTwice turn w.startOfMinute.second := by
    have := (z.minuteAt_le wake.second).1
    have := htwice.after
    exact ⟨hc, by omega, by omega⟩
  obtain ⟨restart', hother, hrestart'⟩ :=
    hz.exists_restart (d := .forward) hin96 hread htwice' hwt
  refine occurrence_eq_ok_iff.mpr
    ⟨w, start', x, hread, hadd, ?_, Or.inr ⟨restart', y, hother, ?_, rfl⟩⟩
  · refine firstPast_later hv hw.asked hwx (fun k hk => ?_) (fun m hm => ?_) hx
    · have hpass := passes_of_candidate (d := .forward) hstart' hk
      exact candidate_of_passes (d := .forward) hk.admitted (Int.lt_of_le_of_lt hle hpass)
        (Or.inl hstart)
    · have hpass := passes_of_candidate (d := .forward) hstart hm.candidate
      rcases hm.passes_or_passesOver hz (hw.origin_inside.mono (by decide)) hin96 hpass hw.asked hwx
        with hstill | ⟨turn', hover, hot, htw⟩
      · exact candidate_of_passes (d := .forward) hm.candidate.admitted hstill (Or.inl hstart')
      · exact absurd hover (htwice.not_passesOver hz (by omega))
  · have hcand : ∀ k, s.Candidate .forward restart'.civil k ↔
        s.Candidate .forward restart.civil k := by
      intro k
      rw [candidate_iff, candidate_iff, hrestart'.trans hrestart.symm]
    exact firstPast_later hv hw.asked hwy (fun k => (hcand k).mp)
      (fun m hm => (hcand m).mpr hm.candidate) hy

/-- A search finds the same setting out once more if it comes to a minute that it has come to
before. -/
theorem Finds.eq_of_restart {m' : CivilMinute}
    (htwice : z.ShowsTwice turn (z.minuteAt origin.second)) (hot : origin.second < turn)
    (hstart : start.second = z.minuteAt origin.second + 60)
    (hrestart : restart.second = z.restartAt .forward turn)
    (hx : s.Finds z .forward origin start.civil m x)
    (hy : s.Finds z .forward origin restart.civil m' y)
    (hpass : Direction.forward.Passes (z.minuteAt origin.second) (m'.number * 60)) : x = y := by
  exact (hx.eq hy (candidate_of_passes hx.candidate.admitted
    (passes_of_candidate (d := .forward) hstart hx.candidate)
    (Or.inr ⟨turn, htwice, hot, hrestart⟩))
    (candidate_of_passes hy.candidate.admitted hpass (Or.inl hstart))).symm

/-- **Beyond the turn of a fold** nothing that a search finds from the minute next to that of its
origin comes before what it finds only setting out once more. -/
theorem Finds.not_lt_of_restart (hz : z.Regular) (ho : origin.Inside 96) (hin : x.Inside 96)
    {m' : CivilMinute} (htwice : z.ShowsTwice turn (z.minuteAt origin.second))
    (hot : origin.second < turn) (hstart : start.second = z.minuteAt origin.second + 60)
    (hrestart : restart.second = z.restartAt .forward turn)
    (hx : s.Finds z .forward origin start.civil m x)
    (hy : s.Finds z .forward origin restart.civil m' y)
    (hnot : ¬ Direction.forward.Passes (z.minuteAt origin.second) (m'.number * 60))
    (htx : turn ≤ x.second) : ¬ x < y := by
  intro hlt
  have hpass := passes_of_candidate (d := .forward) hstart hx.candidate
  obtain ⟨⟨hyn, hys⟩, hclose⟩ := hy.begins_of_restart hz ho htwice hrestart hnot
  have hside := hy.not_meets_of_restart hz ho (z.aligned_forward origin) htwice hot hrestart hnot
  have hbefore := htwice.before
  have hback := hz.back turn
  have hfar := (hx.resolves.nearby hz.within).2
  simp only [Direction.Passes, Direction.Meets] at hpass hnot hside
  obtain ⟨hf, hl⟩ := hin
  rw [Stamp.lt_def] at hlt
  have hyoff := hz.offsetAt_after htwice.changes (u := y.second) (by omega) (by omega)
  rcases begins_or_standsIn hz hx.candidate.admitted (by omega) (by omega) hx.resolves
    with ⟨hxn, hxs⟩ | ⟨turn', hstands⟩
  · -- past the turn the clock shows the minutes in their order
    have := hz.offsetAt_after htwice.changes (u := x.second) htx (by omega)
    omega
  · have := hstands.turn_near hz.within
    exact htwice.not_passesOver hz (by omega) hstands.passesOver

/-- What a search finds setting out once more is the answer, if one waits for it beyond the turn of
the fold, and the clock does not go past its minute. -/
theorem Finds.answer_of_restart (hz : z.Regular) (hw : Waits origin wake r) {mx my : CivilMinute}
    (hno : ¬ s.PassesTurn z origin wake r)
    (htwice : z.ShowsTwice turn (z.minuteAt origin.second)) (hot : origin.second < turn)
    (htw : turn ≤ wake.second) (hstart : start.second = z.minuteAt origin.second + 60)
    (hrestart : restart.second = z.restartAt .forward turn)
    (hx : s.Finds z .forward origin start.civil mx x)
    (hy : s.Finds z .forward origin restart.civil my y)
    (hnearer : r = Direction.forward.nearer x y) :
    r = y ∧ z.minuteAt wake.second < my.number * 60 := by
  by_cases hpass : Direction.forward.Passes (z.minuteAt origin.second) (my.number * 60)
  · obtain rfl := hx.eq_of_restart htwice hot hstart hrestart hy hpass
    obtain rfl : r = x := hnearer.trans ((Direction.nearer_eq .forward x x).elim id id)
    exact ⟨rfl, hy.passes_of_waits hz hw hpass hno⟩
  · have ho := hw.origin_inside.mono (show 96 ≤ 144 by decide)
    have hpending := hw.pending
    have hry : r = y := by
      rcases Direction.nearer_eq .forward x y with he | he
      · obtain rfl := hnearer.trans he
        rcases (Direction.nearer_spec .forward r y).2 with heq | hlt
        · exact hnearer.trans heq
        · rw [← hnearer] at hlt
          refine absurd hlt (hx.not_lt_of_restart hz ho (hw.answer_inside.mono (by decide)) htwice
            hot hstart hrestart hy hpass ?_)
          rw [Stamp.lt_def] at hpending
          omega
      · exact hnearer.trans he
    subst hry
    obtain ⟨⟨hrn, hrs⟩, hclose⟩ := hy.begins_of_restart hz ho htwice hrestart hpass
    have hside := hy.not_meets_of_restart hz ho (z.aligned_forward origin) htwice hot hrestart hpass
    simp only [Direction.Meets] at hside
    rw [Stamp.lt_def] at hpending
    have := hz.offsetAt_after htwice.changes (u := r.second) (by omega) (by omega)
    have := hz.offsetAt_after htwice.changes (u := wake.second) htw (by omega)
    have := (z.minuteAt_le wake.second).1
    exact ⟨rfl, by omega⟩

/-- **Beyond the turn of a fold** the search that asks again finds from its origin what the earlier
one found setting out once more. -/
theorem firstPast_again_of_fold (hv : s.Valid) (hz : z.Regular) (hw : Waits origin wake r)
    (hno : ¬ s.PassesTurn z origin wake r)
    (htwice : z.ShowsTwice turn (z.minuteAt origin.second)) (hot : origin.second < turn)
    (htw : turn ≤ wake.second) (hstart : start.second = z.minuteAt origin.second + 60)
    (hrestart : restart.second = z.restartAt .forward turn)
    (hstart' : start'.second = z.minuteAt wake.second + 60)
    (hx : s.firstPast z .forward origin maxAttempts start = .ok x)
    (hy : s.firstPast z .forward origin maxAttempts restart = .ok y)
    (hnearer : r = Direction.forward.nearer x y) :
    s.firstPast z .forward wake maxAttempts start' = .ok r := by
  obtain ⟨mx, hmx⟩ := finds_of_firstPast hv hx
  obtain ⟨my, hmy⟩ := finds_of_firstPast hv hy
  have hanswer := fun {m} (hm : s.Finds z .forward origin restart.civil m y) =>
    hmx.answer_of_restart hz hw hno htwice hot htw hstart hrestart hm hnearer
  obtain rfl := (hanswer hmy).1
  refine firstPast_later hv hw.asked hw.pending (fun k hk => ?_) (fun m hm => ?_) hy
  · -- the clock has gone past the time to which it was put back
    have hpass := passes_of_candidate (d := .forward) hstart' hk
    have hfrom : restart.second = turn + z.offsetAt turn := hrestart
    have hgone : restart.second ≤ wake.second + z.offsetAt wake.second := by
      have := hz.within turn
      have := hz.within wake.second
      rcases Int.lt_or_le (turn + 259200) wake.second with hfar | hnear
      · omega
      · have := hz.offsetAt_after htwice.changes htw hnear
        omega
    have := (z.minuteAt_le wake.second).2
    simp only [Direction.Passes] at hpass
    refine candidate_iff.mpr ⟨hk.admitted, ?_⟩
    simp only [Direction.Reaches]
    omega
  · exact candidate_of_passes (d := .forward) hm.candidate.admitted (hanswer hm).2 (Or.inl hstart')

/-- **While its turn does not pass the answer stays the same.** -/
theorem next_again (hv : s.Valid) (hz : z.Regular) (hw : Waits origin wake r)
    (h : s.next z origin = .ok r) (hno : ¬ s.PassesTurn z origin wake r) :
    s.next z wake = .ok r := by
  have ho := hw.origin_inside.mono (show 96 ≤ 144 by decide)
  have hr := hw.answer_inside.mono (show 96 ≤ 144 by decide)
  have hmissed : ∀ t, s.Occurs z t → wake < t → t < r →
      ∃ turn m, s.StandsIn z turn m r ∧ wake.second < turn ∧ turn ≤ t.second := by
    intro t ht hwt htr
    obtain ⟨turn, m, hx, hot, hnot⟩ :=
      (journey_of_occurrence hv hz ho h).exists_standsIn_of_missed hz ho hr
        (z.aligned_forward origin) ht (Stamp.lt_of_le_of_lt hw.asked hwt) htr
    exact ⟨turn, m, hx, Int.not_le.mp fun hle => hno ⟨turn, m, hx, hot, hle⟩, Int.not_lt.mp hnot⟩
  obtain ⟨w, start, x, hread, hadd, hfound, hend⟩ := occurrence_eq_ok_iff.mp h
  obtain ⟨hshown, hstart⟩ := second_start hread hadd
  rcases hend with ⟨hother, rfl⟩ | ⟨restart, y, hother, hagain, hnearer⟩
  · -- no fold is ahead
    refine next_of_firstPast hv hz hw.wake_inside hr (fun start' hstart' => firstPast_again hv hz hw
      hno (fun turn htwice hot => ?_) hstart hstart' hfound) hmissed
    rw [← hshown] at htwice
    obtain ⟨_, hsome, -⟩ := hz.exists_restart (d := .forward) ho hread htwice hot
    rw [hother] at hsome
    cases hsome
  · obtain ⟨turn, htwice, hot, hrestart⟩ := hz.turn_of_otherPass? ho hread hother
    rw [hshown] at htwice
    by_cases htw : turn ≤ wake.second
    · exact next_of_firstPast hv hz hw.wake_inside hr (fun start' hstart' =>
        firstPast_again_of_fold hv hz hw hno htwice hot htw hstart hrestart hstart' hfound hagain
          hnearer) hmissed
    · obtain ⟨hrx, hry⟩ := Direction.nearer_spec .forward x y
      rw [← hnearer] at hrx hry
      have hahead : ∀ {u}, r = u ∨ Direction.forward.Past r u → wake < u := by
        rintro u (rfl | hru)
        · exact hw.pending
        · exact Stamp.lt_trans hw.pending hru
      rw [hnearer]
      exact next_again_in_fold hv hz hw htwice (Int.not_le.mp htw) hstart hrestart hfound
        (hahead hrx) hagain (hahead hry)

/-! ### The turn of the answer passes -/

/-- **Beyond the turn of the answer** the search that asks again finds it from its origin if it is
the next occurrence. -/
theorem firstPast_again_of_occurs (hv : s.Valid) (hz : z.Regular) (hw : Waits origin wake r)
    (hx : s.StandsIn z turn m r) (htw : turn ≤ wake.second) (hoccurs : s.Occurs z r)
    (hnone : ∀ t, s.Occurs z t → wake < t → ¬ t < r)
    (hstart' : start'.second = z.minuteAt wake.second + 60) :
    s.firstPast z .forward wake maxAttempts start' = .ok r := by
  obtain ⟨c, hc, hbegins⟩ := hoccurs
  have hrn := hbegins.1
  have hrs := hbegins.2
  have hnear := hx.turn_near hz.within
  have hwithin := hz.within wake.second
  obtain ⟨hminute, hminute'⟩ := z.minuteAt_le wake.second
  have h60 := z.minuteAt_mod wake.second
  obtain ⟨hrf, hrl⟩ := hw.answer_inside
  have hlt : wake.second < r.second := by
    have hwr := hw.pending
    rw [Stamp.lt_def] at hwr
    omega
  -- the clock stands on one offset while one waits
  have hsteady : ∀ u, wake.second ≤ u → u ≤ r.second → z.offsetAt u = z.offsetAt wake.second := by
    intro u hwu hur
    refine Zone.offsetAt_eq_of_steady hwu fun v hwv hvu hcv => ?_
    have := hz.apart turn v hx.passesOver.changes hcv (by omega)
    omega
  have hroff := hsteady r.second (by omega) (Int.le_refl _)
  have hnearest : s.Nearest .forward start'.civil c := by
    refine ⟨candidate_of_passes (d := .forward) hc (show z.minuteAt wake.second < _ by omega)
      (Or.inl hstart'), fun k hk => Int.not_lt.mp fun hkc => ?_⟩
    have hpass := passes_of_candidate (d := .forward) hstart' hk
    simp only [Direction.Passes] at hpass
    have hkoff := hsteady (k.number * 60 - z.offsetAt wake.second) (by omega) (by omega)
    have hshown : k.number * 60 - z.offsetAt wake.second +
        z.offsetAt (k.number * 60 - z.offsetAt wake.second) = k.number * 60 := by omega
    obtain ⟨u, hus, hu⟩ := Zone.exists_begins (by omega) (by omega) hshown
    exact hnone u ⟨k, hk.admitted, hu⟩ (Stamp.lt_def.mpr (by omega)) (Stamp.lt_def.mpr (by omega))
  obtain ⟨y, hres, hy, hfirst⟩ :=
    hz.nearest_begins (d := .forward) hc.1 (by omega) (by omega) hbegins hw.pending
  rcases hfirst r hbegins hw.pending with rfl | hyr
  · exact hnearest.firstPast_eq_ok hv hres
  · exact absurd hyr (hnone y ⟨c, hc, hy⟩ hres.past)

/-- **Beyond its turn an answer is found again only as the next occurrence.** -/
theorem occurs_of_next_again (hv : s.Valid) (hz : z.Regular) (hw : Waits origin wake r)
    (hagain : s.next z wake = .ok r) (hturn : s.PassesTurn z origin wake r) :
    s.Occurs z r ∧ ∀ t, s.Occurs z t → wake < t → ¬ t < r := by
  have hin := hw.wake_inside.mono (show 96 ≤ 144 by decide)
  have hr := hw.answer_inside.mono (show 96 ≤ 144 by decide)
  have hjourney := journey_of_occurrence hv hz hin hagain
  obtain ⟨turn, m, hx, -, htw⟩ := hturn
  have hbehind : ∀ turn' m', s.StandsIn z turn' m' r → ¬ wake.second < turn' := by
    intro turn' m' hx' hlt
    rw [hx.turn_eq hz.toSpaced hx'] at htw
    omega
  refine ⟨?_, fun t ht hwt htr => ?_⟩
  · obtain ⟨-, hoccurs | ⟨turn', m', hx', hmeets⟩⟩ := hjourney.occurs_or_standsIn hz hin hr
    · exact hoccurs
    · exact absurd hmeets (hbehind turn' m' hx')
  · obtain ⟨turn', m', hx', hmeets, -⟩ :=
      hjourney.exists_standsIn_of_missed hz hin hr (z.aligned_forward wake) ht hwt htr
    exact hbehind turn' m' hx' hmeets

/-- **When the answer stays the same while one waits for it**: exactly if its turn does not pass
meanwhile, or it is an occurrence in its own right and no other comes before it. -/
theorem next_again_iff {expression : String} (hs : parse expression = .ok s) (hz : z.Regular)
    (hw : Waits origin wake r) (h : s.next z origin = .ok r) :
    s.next z wake = .ok r ↔ ¬ s.PassesTurn z origin wake r ∨
      s.Occurs z r ∧ ∀ t, s.Occurs z t → wake < t → ¬ t < r := by
  have hv := valid_of_parse hs
  by_cases hturn : s.PassesTurn z origin wake r
  · constructor
    · exact fun hagain => Or.inr (occurs_of_next_again hv hz hw hagain hturn)
    · intro hwhen
      obtain ⟨hoccurs, hnone⟩ := hwhen.resolve_left fun hno => hno hturn
      obtain ⟨turn, m, hx, -, htw⟩ := hturn
      exact next_of_firstPast hv hz hw.wake_inside (hw.answer_inside.mono (by decide))
        (fun start' hstart' => firstPast_again_of_occurs hv hz hw hx htw hoccurs hnone hstart')
        fun t ht hwt htr => absurd htr (hnone t ht hwt)
  · exact ⟨fun _ => Or.inl hturn, fun _ => next_again hv hz hw h hturn⟩

/-- On 8 March 2026 the clocks are put forward from two to three in the morning, and half past
three stands in for half past two.  Asked again at three the search has another answer, for the
turn has passed. -/
theorem next_again_iff_gap : ∃ s, parse "30 2 * * *" = .ok s ∧ ∃ origin wake r : Instant,
    (origin.second = 1772946000 ∧ wake.second = 1772953200) ∧ Waits origin wake r ∧
      s.next Zone.eastern origin = .ok r ∧ s.PassesTurn Zone.eastern origin wake r := by
  obtain ⟨s, hs, hnext, hagain⟩ := exists_of_parse "30 2 * * *" (fun s =>
      s.next Zone.eastern ⟨1772946000, 0, by decide, by decide, by decide⟩ =
        .ok ⟨1772955000, 0, by decide, by decide, by decide⟩ ∧
      s.next Zone.eastern ⟨1772953200, 0, by decide, by decide, by decide⟩ ≠
        .ok ⟨1772955000, 0, by decide, by decide, by decide⟩) (by decide +kernel)
  have hw : Waits ⟨1772946000, 0, by decide, by decide, by decide⟩
      ⟨1772953200, 0, by decide, by decide, by decide⟩
      ⟨1772955000, 0, by decide, by decide, by decide⟩ :=
    ⟨by decide, by decide, ⟨by decide, by decide⟩, by decide, by decide⟩
  refine ⟨s, hs, _, _, _, ⟨rfl, rfl⟩, hw, hnext, ?_⟩
  have hiff := next_again_iff hs Zone.wholeMinutes_eastern.toRegular hw hnext
  exact Classical.not_not.mp fun hno => hagain (hiff.mpr (Or.inl hno))

/-- **A search that asks again misses the run that one waits for**: at three in the morning of 8 March
2026 in New York, with the run half an hour ahead. -/
theorem next_changes_while_waiting : ∃ s, parse "30 2 * * *" = .ok s ∧
    ∃ origin wake r : Instant, (origin.second = 1772946000 ∧ wake.second = 1772953200) ∧
      (origin ≤ wake ∧ wake < r) ∧ s.next Zone.newYork origin = .ok r ∧
      s.next Zone.newYork wake ≠ .ok r := by
  obtain ⟨s, hs, hnext, hagain⟩ := exists_of_parse "30 2 * * *" (fun s =>
      s.next Zone.newYork ⟨1772946000, 0, by decide, by decide, by decide⟩ =
        .ok ⟨1772955000, 0, by decide, by decide, by decide⟩ ∧
      s.next Zone.newYork ⟨1772953200, 0, by decide, by decide, by decide⟩ ≠
        .ok ⟨1772955000, 0, by decide, by decide, by decide⟩) (by decide +kernel)
  exact ⟨s, hs, _, _, _, ⟨rfl, rfl⟩, by decide, hnext, hagain⟩

end Schedule

end Crontab
