import Crontab.Proofs.Retries
import Crontab.Proofs.Sight

/-! # A search forward that sets out later

A search forward that sets out later, but before the instant that an earlier one has found, has
fewer minutes to go through and takes the same instants for them as long as these lie ahead
(`Zone.Resolves.later`).  So **it finds the same if it still comes to the same minute**
(`Schedule.firstPast_later`).  The clock does not go past that minute in between unless it is put
forward past it (`Schedule.Finds.passes_or_passesOver`).

What may come between is the other pass of a fold.  A search that sets out once more always finds
something, since every minute that begins in the other pass has an instant there
(`Schedule.exists_firstPast_of_fold`), and **that comes no earlier** if nothing else does
(`Schedule.Finds.not_lt_of_fold`).
-/

namespace Crontab

open Outcome

namespace Stamp

variable {clock : Clock} {a b c : Stamp clock}

theorem lt_of_le_of_lt (hab : a ≤ b) (hbc : b < c) : a < c := by
  rw [le_def] at hab
  rw [lt_def] at *
  omega

end Stamp

namespace Zone

variable {z : Zone} {origin wake r x : Instant} {m : CivilMinute} {turn : Int}

/-- **A search that sets out later takes the same instant for a minute**, if it still lies
ahead. -/
theorem Resolves.later (how : origin ≤ wake) (hwx : wake < x)
    (h : z.Resolves .forward origin m (some x)) : z.Resolves .forward wake m (some x) := by
  obtain ⟨w, ts, hw, hts, hpick⟩ := h
  refine ⟨w, ts, hw, hts, ?_⟩
  obtain ⟨-, before, after, rfl, hnone⟩ := List.find?_eq_some_iff_append.mp hpick
  refine List.find?_eq_some_iff_append.mpr ⟨decide_eq_true hwx, before, after, rfl, fun t ht => ?_⟩
  have hnot : ¬ origin < t := by simpa using hnone t ht
  have : ¬ wake < t := fun hlt => hnot (Stamp.lt_of_le_of_lt how hlt)
  simpa using this

/-- A search that sets out later takes no instant for a minute for which an earlier one takes
none. -/
theorem Resolves.later_none (how : origin ≤ wake) (h : z.Resolves .forward origin m none) :
    z.Resolves .forward wake m none := by
  obtain ⟨w, ts, hw, hts, hpick⟩ := h
  refine ⟨w, ts, hw, hts, Direction.pick_eq_none_iff.mpr fun t ht hlt => ?_⟩
  exact Direction.pick_eq_none_iff.mp hpick t ht (Stamp.lt_of_le_of_lt how hlt)

end Zone

namespace Schedule

variable {s : Schedule} {z : Zone} {origin wake r x : Instant} {m : CivilMinute} {n : Nat}
  {start start' : WallTime} {turn : Int}

/-- **A search that sets out later finds the same** if it comes to no other minutes and still comes
to the one found. -/
theorem firstPast_later (hv : s.Valid) (how : origin ≤ wake) (hwx : wake < x)
    (hsub : ∀ k, s.Candidate .forward start'.civil k → s.Candidate .forward start.civil k)
    (hstill : ∀ m, s.Finds z .forward origin start.civil m x →
      s.Candidate .forward start'.civil m)
    (h : s.firstPast z .forward origin n start = .ok x) :
    s.firstPast z .forward wake n start' = .ok x := by
  obtain ⟨m, hm, -, hcount⟩ := (firstPast_eq_ok_iff hv).mp h
  refine (firstPast_eq_ok_iff hv).mpr ⟨m, ⟨hstill m hm, hm.resolves.later how hwx,
    fun k hk hp => (hm.before k (hsub k hk) hp).later_none how⟩, hstill m hm, fun l hl hall => ?_⟩
  exact hcount l hl fun a ha => ⟨hsub a (hall a ha).1, (hall a ha).2⟩

/-- **The clock does not come to the minute that a search takes before the instant taken**, unless
it is put forward past it. -/
theorem Finds.passes_or_passesOver (hz : z.Regular) (ho : origin.Inside 96)
    (hin : wake.Inside 96) {start : CivilMinute} (h : s.Finds z .forward origin start m x)
    (hpass : z.minuteAt origin.second < m.number * 60) (how : origin ≤ wake) (hwx : wake < x) :
    z.minuteAt wake.second < m.number * 60 ∨
      ∃ turn, z.PassesOver turn m ∧ origin.second < turn ∧ turn ≤ wake.second := by
  rcases Int.lt_or_le (z.minuteAt wake.second) (m.number * 60) with hbefore | hpast
  · exact Or.inl hbefore
  refine Or.inr ?_
  have hwithin := hz.within
  have := hwithin origin.second
  have := hwithin wake.second
  obtain ⟨-, hminute⟩ := z.minuteAt_le origin.second
  obtain ⟨hminute', -⟩ := z.minuteAt_le wake.second
  obtain ⟨hf, -⟩ := ho
  obtain ⟨-, hl⟩ := hin
  have hm60 := z.minuteAt_mod origin.second
  have hle : origin.second ≤ wake.second := by
    rw [Stamp.le_def, Stamp.lt_def] at how
    omega
  rcases z.exists_shown_or_passed hle (show _ < m.number * 60 by omega)
    (show m.number * 60 ≤ _ by omega) with ⟨u, ⟨hou, huw⟩, hu⟩ | ⟨turn, ⟨hot, htw⟩, hover⟩
  · -- the search would have taken the instant at which the clock has come to the minute
    obtain ⟨v, rfl, hv⟩ := Zone.exists_begins (z := z) (by omega) (by omega) hu
    obtain ⟨y, hres, -, hnearest⟩ := hz.nearest_begins h.candidate.inUse (by omega) (by omega) hv
      (show Direction.forward.Past origin v from Stamp.lt_def.mpr (Or.inl hou))
    cases hres.unique h.resolves
    have hwv : ¬ wake < v := by
      have := hv.1
      rw [Stamp.lt_def]
      omega
    rcases hnearest v hv (Stamp.lt_def.mpr (Or.inl hou)) with rfl | hxv
    · exact absurd hwx hwv
    · exact absurd (Stamp.lt_trans hwx hxv) hwv
  · exact ⟨turn, hover, hot, htw⟩

/-! ### The other pass of a fold ahead -/

/-- **Before the turn of a fold every minute that its second pass shows has an instant ahead**, and
so has every minute after. -/
theorem exists_resolves_of_fold (hz : z.Regular) {second : Int}
    (htwice : z.ShowsTwice turn second) (hahead : wake.second < turn) (hin : wake.Inside 96)
    (hm : m.InUse) (hm60 : turn + z.offsetAt turn ≤ m.number * 60)
    (hl : m.number * 60 ≤ lastSecond - 180000) (hnear : turn ≤ wake.second + 43260) :
    ∃ x, z.Resolves .forward wake m (some x) := by
  have hwithin := hz.within
  have hat := hwithin turn
  obtain ⟨hwf, hwl⟩ := hin
  have hf : firstSecond + 180000 ≤ m.number * 60 := by omega
  by_cases hbegins : ∃ u, z.Begins u m
  · obtain ⟨u, hu⟩ := hbegins
    by_cases hwu : wake < u
    · obtain ⟨x, hres, -⟩ := hz.nearest_begins hm hf hl hu (d := .forward) hwu
      exact ⟨x, hres⟩
    · -- the minute begins in the first pass, so it begins in the second too
      have hus := hu.2
      have := hwithin u.second
      rw [Stamp.lt_def] at hwu
      have hoff := hz.offsetAt_after htwice.changes (u := m.number * 60 - z.offsetAt turn)
        (by omega) (by omega)
      have hshown : m.number * 60 - z.offsetAt turn +
          z.offsetAt (m.number * 60 - z.offsetAt turn) = m.number * 60 := by omega
      obtain ⟨v, hvs, hv⟩ := Zone.exists_begins (by omega) (by omega) hshown
      have hwv : wake < v := Stamp.lt_def.mpr (by omega)
      obtain ⟨x, hres, -⟩ := hz.nearest_begins hm hf hl hv (d := .forward) hwv
      exact ⟨x, hres⟩
  · obtain ⟨turn', hover, hclose, w, t, hw, ht⟩ := hz.passesOver hm hf hl fun u hu => hbegins ⟨u, hu⟩
    obtain ⟨hws, hwn, -⟩ := CivilMinute.figures_of_toWall? hw
    obtain ⟨htn, hts⟩ := Zone.showing_nearby hwithin (Stamp.not_isLeap_of_nano_eq_zero hwn) ht
      List.mem_cons_self
    by_cases hwt : wake < t
    · exact ⟨t, w, [t], hw, ht, by simpa [Direction.pick] using hwt⟩
    · -- its instant cannot lie behind, for no clock is put forward so close to a fold
      rw [Stamp.lt_def] at hwt
      exact absurd hover (htwice.not_passesOver hz (by omega))

/-- **A search that sets out once more finds something**, if it comes to any minute. -/
theorem exists_firstPast_of_fold (hv : s.Valid) (hz : z.Regular) {second : Int}
    (htwice : z.ShowsTwice turn second) (hahead : wake.second < turn) (hin : wake.Inside 144)
    (hnear : turn ≤ wake.second + 43260) (hstart : start.second = z.restartAt .forward turn)
    (hm : s.Candidate .forward start.civil m) (hm60 : start.second ≤ m.number * 60)
    (hl : m.number * 60 ≤ lastSecond - 180000) :
    ∃ x, s.firstPast z .forward wake (n + 2) start = .ok x := by
  have hat := hz.within turn
  have hfrom : start.second = turn + z.offsetAt turn := hstart
  have hin96 : wake.Inside 96 := hin.mono (by decide)
  obtain ⟨hf, hwl⟩ := hin
  obtain ⟨c, w, -, hc, -, hgoes⟩ := hm.exists_nearest hv
  have hcm := hc.reaches m hm
  have hcstart := (candidate_iff.mp hc.candidate).2
  simp only [Direction.Reaches] at hcm hcstart
  by_cases hc60 : start.second ≤ c.number * 60
  · obtain ⟨x, hres⟩ := exists_resolves_of_fold hz htwice hahead hin96 hc.candidate.inUse
      (by omega) (by omega) hnear
    exact ⟨x, hc.firstPast_eq_ok hv hres⟩
  -- the clock is put back in mid-minute, so the search comes to the minute in which it is first
  obtain ⟨found, hres⟩ := exists_resolves hz.within .forward wake hc.candidate.inUse
    (by omega) (by omega)
  cases found with
  | some x => exact ⟨x, hc.firstPast_eq_ok hv hres⟩
  | none =>
    have hne : m ≠ c := by
      rintro rfl
      exact hc60 hm60
    obtain ⟨next, -, hnext⟩ := hgoes hne
    have he := next.civil_inUse.exists
    obtain ⟨c', w', -, hc', -, -⟩ :=
      ((hc.candidate_iff he hnext).mpr ⟨hm, hc.passes_of_ne hm hne⟩).exists_nearest hv
    have hcm' := hc'.reaches m ((hc.candidate_iff he hnext).mpr ⟨hm, hc.passes_of_ne hm hne⟩)
    have hcc' := ((hc.candidate_iff he hnext).mp hc'.candidate).2
    simp only [Direction.Reaches, Direction.Passes] at hcm' hcc'
    obtain ⟨x, hres'⟩ := exists_resolves_of_fold hz htwice hahead hin96 hc'.candidate.inUse
      (by omega) (by omega) hnear
    obtain ⟨m', hfinds, hamong⟩ :=
      (firstPast_eq_ok_iff hv).mp (hc'.firstPast_eq_ok (n := n) hv hres')
    exact ⟨x, (firstPast_eq_ok_iff hv).mpr ⟨m', (hc.finds_iff he hnext hres).mpr hfinds,
      (hc.amongNearest_succ_iff he hnext).mpr (Or.inr hamong)⟩⟩

/-- **A search that sets out once more finds nothing earlier** than one that goes past no
occurrence, but for a stand-in whose turn lies ahead. -/
theorem Finds.not_lt_of_fold (hz : z.Regular) (hin : wake.Inside 96) {restart : WallTime}
    {again : Instant} {m' : CivilMinute} (h : s.Finds z .forward wake start.civil m r)
    (hstart : start.second = z.minuteAt wake.second + 60)
    (htwice : z.ShowsTwice turn (z.minuteAt wake.second)) (hmeets : wake.second < turn)
    (hrestart : restart.second = z.restartAt .forward turn)
    (hagain : s.Finds z .forward wake restart.civil m' again)
    (hmissed : ∀ t, s.Occurs z t → wake < t → t < r →
      ∃ turn m, s.StandsIn z turn m r ∧ wake.second < turn ∧ turn ≤ t.second) :
    ¬ again < r := by
  intro hlt
  by_cases hpass' : Direction.forward.Passes (z.minuteAt wake.second) (m'.number * 60)
  · -- either search comes to the minute of the other, so it is the same
    have hpass := passes_of_candidate (d := .forward) hstart h.candidate
    obtain rfl := h.eq hagain
      (candidate_of_passes h.candidate.admitted hpass (Or.inr ⟨turn, htwice, hmeets, hrestart⟩))
      (candidate_of_passes hagain.candidate.admitted hpass' (Or.inl hstart))
    exact Stamp.lt_irrefl _ hlt
  · -- no clock is put forward so close to a fold, so nothing stands in for that
    obtain ⟨hbegins, hclose⟩ := hagain.begins_of_restart hz hin htwice hrestart hpass'
    obtain ⟨turn', m'', hx, hwake', hle⟩ := hmissed again
      ⟨m', hagain.candidate.admitted, hbegins⟩ hagain.resolves.past hlt
    obtain ⟨hminute, hminute'⟩ := z.minuteAt_le wake.second
    have hnear := htwice.near hz hminute hminute'
    exact htwice.not_passesOver hz (by omega) hx.passesOver

/-- **What a search finds from the minute next to that of its origin is its result**, if it goes
past no occurrence for it, but for a stand-in whose turn lies ahead. -/
theorem next_of_firstPast (hv : s.Valid) (hz : z.Regular) (hin : wake.Inside 144)
    (hr : r.Inside 96)
    (hfound : ∀ start : WallTime, start.second = z.minuteAt wake.second + 60 →
      s.firstPast z .forward wake maxAttempts start = .ok r)
    (hmissed : ∀ t, s.Occurs z t → wake < t → t < r →
      ∃ turn m, s.StandsIn z turn m r ∧ wake.second < turn ∧ turn ≤ t.second) :
    s.next z wake = .ok r := by
  have hwake := hz.within wake.second
  obtain ⟨hminute, hminute'⟩ := z.minuteAt_le wake.second
  have hin96 : wake.Inside 96 := hin.mono (by decide)
  obtain ⟨hf, hl⟩ := hin
  obtain ⟨hrf, hrl⟩ := hr
  obtain ⟨w, start, hw, hadd, hshown, hstart⟩ :=
    exists_start hz.within .forward (hin96.mono (show 48 ≤ 96 by decide))
  have hr := hfound start hstart
  have hwin : w.startOfMinute.Inside 96 := ⟨by omega, by omega⟩
  obtain ⟨other, hother, -⟩ :=
    Zone.exists_otherPass hz.within .forward wake hwin Stamp.not_isLeap_startOfMinute
  cases other with
  | none => exact occurrence_eq_ok_iff.mpr ⟨w, start, r, hw, hadd, hr, Or.inl ⟨hother, rfl⟩⟩
  | some restart =>
    obtain ⟨turn, htwice, hmeets, hrestart⟩ := hz.turn_of_otherPass? hin96 hw hother
    rw [hshown] at htwice
    have hnear := htwice.near hz hminute hminute'
    have hafter := htwice.after
    have hrestart' : restart.second = turn + z.offsetAt turn := hrestart
    obtain ⟨m, hm⟩ := finds_of_firstPast hv hr
    have hadm := hm.candidate.admitted
    have hpass : Direction.forward.Passes (z.minuteAt wake.second) (m.number * 60) :=
      passes_of_candidate hstart hm.candidate
    have hfar := (hm.resolves.nearby hz.within).2
    have hcand : s.Candidate .forward restart.civil m :=
      candidate_of_passes hadm hpass (Or.inr ⟨turn, htwice, hmeets, hrestart⟩)
    simp only [Direction.Passes, Direction.Meets] at hpass hmeets
    obtain ⟨again, hagain⟩ := exists_firstPast_of_fold (n := 1) hv hz htwice hmeets ⟨hf, hl⟩
      (by omega) hrestart hcand (by omega) (by omega)
    obtain ⟨m', hm'⟩ := finds_of_firstPast hv hagain
    have hnot : ¬ again < r :=
      hm.not_lt_of_fold hz hin96 hstart htwice hmeets hrestart hm' hmissed
    have hnearer : r = Direction.forward.nearer r again := by
      change r = if r ≤ again then r else again
      rw [if_pos (show r ≤ again from hnot)]
    exact occurrence_eq_ok_iff.mpr
      ⟨w, start, r, hw, hadd, hr, Or.inr ⟨restart, again, hother, hagain, hnearer⟩⟩

end Schedule

end Crontab
