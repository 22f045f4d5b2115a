import Crontab.Proofs.Sight
import Crontab.Zone.Table

/-! # Minutes that a search forward sleeps through

A minute that the clock passes over when it is put forward has an instant stand in for it,
an hour on.  The search goes through the minutes by the wall clock, so it comes to the minute
passed over before the minutes after the gap, and its stand-in may come later than they do.
In a regular zone **that is the only way for a search forward to miss an occurrence**
(`Schedule.next_misses_iff`): between the origin and the result an occurrence is missed exactly
when the result stands in for a minute passed over and the clock shows an admitted minute
between the gap and the result (`Schedule.LateStandIn`).

The proof looks at an occurrence ahead.  If its minute comes after the one in which the search
set out, the search has gone past it for a minute that is not shown
(`Schedule.Finds.standIn_of_missed`).  If it comes before, the clock has been put back in
between, and the search that sets out from there would have found it
(`Schedule.Finds.not_missed_of_restart`).
-/

namespace Crontab

open Outcome

namespace Direction

variable {t : Instant}

/-- What comes before the nearer of two instants comes before both. -/
theorem lt_of_lt_nearer {a b : Instant} (h : t < forward.nearer a b) : t < a ∧ t < b := by
  change t < (if a ≤ b then a else b) at h
  split at h
  · rename_i hle
    rw [Stamp.le_def] at hle
    refine ⟨h, ?_⟩
    rw [Stamp.lt_def] at *
    omega
  · rename_i hle
    have hle := Classical.not_not.mp (mt Stamp.le_def.mpr hle)
    exact ⟨Stamp.lt_trans h hle, h⟩

end Direction

namespace Schedule

variable {s : Schedule} {z : Zone} {origin r t x : Instant} {m skipped : CivilMinute} {n : Nat}
  {start restart w : WallTime}

/-- **A stand-in that comes late**: the clock is put forward past the minute `skipped`, for which
the instant `r` stands in, and shows the minute `m` between the turn and `r`. -/
structure LateStandIn (s : Schedule) (z : Zone) (origin r : Instant) (turn : Int)
    (skipped m : CivilMinute) : Prop where
  ahead : origin.second < turn
  passesOver : z.PassesOver turn skipped
  passedOver : skipped.InUse ∧ s.admits skipped = true
  standsIn : ∃ w, skipped.toWall? = some w ∧ z.showing w = .ok [r]
  shown : m.InUse ∧ s.admits m = true
  between : turn + z.offsetAt turn ≤ m.number * 60 ∧ m.number * 60 < r.second + z.offsetAt turn

/-- **A search that has gone past an occurrence ahead has gone for a minute that is not
shown**, if it set out after the minute that the clock shows at the origin. -/
theorem Finds.standIn_of_missed (hz : z.Regular) {start : CivilMinute} (he : start.Exists)
    (h : s.Finds z .forward origin start skipped x)
    (hstart : origin.second + z.offsetAt origin.second < start.number * 60)
    (hm : s.Candidate .forward start m)
    (hf : firstSecond + 345600 ≤ origin.second) (hl : t.second ≤ lastSecond - 345600)
    (ht : z.Begins t m) (hp : origin < t) (hlt : t < x) :
    ∃ turn, s.LateStandIn z origin x turn skipped m ∧ turn ≤ t.second := by
  have hts := ht.2
  have hps : origin.second < t.second := (z.aligned_forward origin).passes ht.1 hp
  obtain ⟨hxn, hxs⟩ := h.resolves.nearby hz.within
  have hltx : t.second < x.second := by
    rw [Stamp.lt_def, hxn, ht.1] at hlt
    omega
  obtain ⟨hadm, hreach⟩ := h.candidate.admitted, h.candidate.ahead
  have hfirst := (CivilMinute.reaches_number_iff he hadm.1.exists).mpr hreach
  simp only [Direction.Reaches] at hfirst
  obtain ⟨hminute, -⟩ := z.minuteAt_le origin.second
  obtain ⟨turn, hover, hahead, hafter⟩ := h.passesOver_of_missed hz ⟨by omega, by omega⟩
    ⟨by omega, by omega⟩ hm (show z.minuteAt origin.second < skipped.number * 60 by omega) ht hp hlt
  simp only [Direction.Meets, Int.not_lt] at hahead hafter
  have hnear := hover.near hz.within
  have htoff := hz.offsetAt_after hover.changes hafter (by omega)
  rcases begins_or_standsIn hz hadm (by omega) (by omega) h.resolves with hx | ⟨_, hx⟩
  · exact absurd hx (hover.not_begins hz.toSpaced x)
  · exact ⟨turn, ⟨hahead, hover, hadm, hx.showing, hm.admitted, ⟨by omega, by omega⟩⟩, hafter⟩

/-- A minute no earlier than a wall time is one that a search forward from there may come
to. -/
theorem candidate_of_le (hm : m.InUse) (hadm : s.admits m = true)
    (hle : start.second ≤ m.number * 60) : s.Candidate .forward start.civil m := by
  refine ⟨hm, hadm, (CivilMinute.reaches_number_iff start.civil_inUse.exists hm.exists).mp ?_⟩
  simp only [Direction.Reaches, Stamp.number_civil]
  omega

/-- **Setting out once more, a search misses nothing that the clock shows again**: no
occurrence ahead whose time is no later than the minute in which the search set out. -/
theorem Finds.not_missed_of_restart (hz : z.Regular) {turn shown : Int}
    (hc : z.Changes turn) (hahead : origin.second < turn) (hnear : turn ≤ origin.second + 43200)
    (hrestart : restart.second = turn + z.offsetAt turn)
    (hshown : shown ≤ origin.second + z.offsetAt origin.second)
    (h : s.Finds z .forward origin restart.civil skipped x) (hm : m.InUse)
    (hadm : s.admits m = true) (hf : firstSecond + 345600 ≤ origin.second)
    (hl : t.second ≤ lastSecond - 345600) (ht : z.Begins t m) (hp : origin < t)
    (hle : m.number * 60 ≤ shown) : ¬ t < x := by
  intro hlt
  have hts := ht.2
  have hps : origin.second < t.second := (z.aligned_forward origin).passes ht.1 hp
  have hbefore := hz.offsetAt_before hc (by omega) hahead
  -- the clock comes to the minute again only beyond the turn, so that lies in a fold
  have hafter : turn ≤ t.second := by
    apply Int.not_lt.mp
    intro hlt'
    have := hz.offsetAt_before hc (by omega) hlt'
    omega
  have hto := hz.within t.second
  have ho := hz.within origin.second
  have htoff := hz.offsetAt_after hc hafter (by omega)
  obtain ⟨hminute, hminute'⟩ := z.minuteAt_le origin.second
  have hm60 := z.minuteAt_mod origin.second
  have htwice : z.ShowsTwice turn (z.minuteAt origin.second) := ⟨hc, by omega, by omega⟩
  have hpasses : z.minuteAt origin.second < m.number * 60 :=
    h.passes_of_missed_of_restart (d := .forward) hz ⟨by omega, by omega⟩ ⟨by omega, by omega⟩
      (z.aligned_forward origin) htwice hahead hrestart ⟨hm, hadm⟩ ht hp (Int.not_lt.mpr hafter) hlt
  omega

/-! ### The occurrences that a search misses -/

/-- **How a search forward comes to its result**: it finds an instant from the minute after
that of the origin, and takes an earlier one if it finds one setting out once more. -/
theorem next_eq_ok (h : s.next z origin = .ok r) : ∃ w start found, z.read origin = .ok w ∧
    w.startOfMinute.add? (Duration.minutes 1) = some start ∧
    s.firstPast z .forward origin maxAttempts start = .ok found ∧
    (z.otherPass? .forward origin w.startOfMinute = .ok none ∧ r = found ∨
      ∃ restart again, z.otherPass? .forward origin w.startOfMinute = .ok (some restart) ∧
        s.firstPast z .forward origin maxAttempts restart = .ok again ∧
        r = Direction.forward.nearer found again) :=
  occurrence_eq_ok_iff.mp h

/-- Setting out once more, a search finds no instant before a stand-in for which it has missed
an occurrence. -/
theorem LateStandIn.eq_of_restart (hz : z.Regular) {turn turn' : Int} {skipped' : CivilMinute}
    {found again : Instant} (hlate : s.LateStandIn z origin found turn skipped m)
    (h : s.Finds z .forward origin start.civil skipped found)
    (h' : s.Finds z .forward origin restart.civil skipped' again)
    (hin : origin.Inside 96) (hc' : z.Changes turn')
    (hturn' : origin.second < turn' ∧ turn' ≤ origin.second + 43200)
    (hrestart : restart.second = turn' + z.offsetAt turn')
    (hle : restart.second + 60 ≤ start.second) (hstart : start.second % 60 = 0)
    (hshown : start.second ≤ origin.second + z.offsetAt origin.second + 60)
    (ht : turn ≤ t.second) (hlt : t < again) : again = found := by
  have hw := hz.within
  have ho := hw origin.second
  obtain ⟨hf, hl⟩ := hin
  have hover := h.candidate
  have hover' := h'.candidate
  have hfirst := (CivilMinute.reaches_number_iff start.civil_inUse.exists hover.inUse.exists).mpr
    hover.ahead
  have hfirst' := (CivilMinute.reaches_number_iff restart.civil_inUse.exists
    hover'.inUse.exists).mpr hover'.ahead
  simp only [Direction.Reaches, Stamp.number_civil] at hfirst hfirst'
  refine h.eq h' (candidate_of_le hover.inUse hover.admits (by omega)) ?_
  rcases Int.lt_or_le (skipped'.number * 60) start.second with hless | hge
  · exfalso
    -- the restart leads to an instant soon after the origin, but the turn past which the clock
    -- is put forward cannot come so soon after the turn back
    obtain ⟨-, hnear⟩ := h'.resolves.nearby hw
    have hsoon : turn ≤ origin.second + 176460 := by
      rw [Stamp.lt_def] at hlt
      omega
    have hc := hlate.passesOver.changes
    have hpasses := hlate.passesOver
    have hahead := hlate.ahead
    rcases Int.lt_trichotomy turn turn' with hlt' | heq | hlt'
    · have := hz.apart turn turn' hc hc' hlt'
      omega
    · unfold Zone.PassesOver at hpasses
      rw [← heq] at hrestart
      omega
    · have := hz.apart turn' turn hc' hc hlt'
      omega
  · exact candidate_of_le hover'.inUse hover'.admits hge

/-- Before a stand-in that comes late an occurrence is due. -/
theorem LateStandIn.exists_missed (hz : z.Regular) {turn : Int}
    (h : s.LateStandIn z origin r turn skipped m) (ho : origin.Inside 96) (hr : r.Inside 96) :
    ∃ t, (origin < t ∧ t < r) ∧ z.BeginsMinute t ∧ s.isDue z t = .ok true := by
  have hw := hz.within
  obtain ⟨hahead, hpasses, ⟨hover, -⟩, ⟨w, hwall, hshowing⟩, hm, hbetween⟩ := h
  obtain ⟨hof, hol⟩ := ho
  obtain ⟨hrf, hrl⟩ := hr
  obtain ⟨hws, hwn, -⟩ := CivilMinute.figures_of_toWall? hwall
  have hleap : ¬ w.IsLeap := Stamp.not_isLeap_of_nano_eq_zero hwn
  have hc := hpasses.changes
  unfold Zone.PassesOver at hpasses
  have hbt := hw (turn - 1)
  have hat := hw turn
  obtain ⟨-, hnear⟩ := Zone.showing_nearby hw hleap hshowing List.mem_cons_self
  have hoff := hz.offsetAt_after hc (u := m.number * 60 - z.offsetAt turn) (by omega) (by omega)
  obtain ⟨t, hts, ht⟩ := Zone.exists_begins (z := z) (m := m)
    (show firstSecond ≤ m.number * 60 - z.offsetAt turn by omega) (by omega) (by omega)
  exact ⟨t, ⟨Stamp.lt_def.mpr (by omega), Stamp.lt_def.mpr (by omega)⟩,
    occurs_iff.mpr ⟨m, hm, ht⟩⟩

/-- **When a search forward misses an occurrence**: exactly when its result stands in for a
minute passed over, and comes later than a minute that the clock shows after the gap. -/
theorem next_misses_iff {expression : String} (hs : parse expression = .ok s) (hz : z.Regular)
    (ho : origin.Inside 96) (hr : r.Inside 96) (h : s.next z origin = .ok r) :
    (∃ t, (origin < t ∧ t < r) ∧ z.BeginsMinute t ∧ s.isDue z t = .ok true) ↔
      ∃ turn skipped m, s.LateStandIn z origin r turn skipped m := by
  have hv := valid_of_parse hs
  have hw := hz.within
  obtain ⟨hof, hol⟩ := ho
  obtain ⟨hrf, hrl⟩ := hr
  constructor
  · rintro ⟨t, ⟨hp, hlt⟩, hoccurs⟩
    obtain ⟨m, ⟨hm, hadm⟩, ht⟩ := occurs_iff.mp hoccurs
    obtain ⟨w, start, found, hread, hadd, hfound, hend⟩ := next_eq_ok h
    obtain ⟨hws, -⟩ := Zone.read_eq_ok.mp hread
    have hshown : w.startOfMinute.second = w.second - w.second % 60 := rfl
    have hstart := ((Stamp.add?_seconds_eq_some Stamp.not_isLeap_startOfMinute).mp hadd).1
    have htl : t.second ≤ lastSecond - 345600 := by
      rw [Stamp.lt_def] at hlt
      omega
    obtain ⟨skipped, hfinds⟩ := finds_of_firstPast hv hfound
    by_cases hlater : start.second ≤ m.number * 60
    · -- the clock shows the minute after that of the origin
      have hmissed : t < found → ∃ turn, s.LateStandIn z origin found turn skipped m ∧
          turn ≤ t.second := by
        refine hfinds.standIn_of_missed hz start.civil_inUse.exists ?_
          (candidate_of_le hm hadm hlater) (by omega) htl ht hp
        rw [Stamp.number_civil]
        omega
      rcases hend with ⟨-, rfl⟩ | ⟨restart, again, hother, hagain, rfl⟩
      · obtain ⟨turn, hlate, -⟩ := hmissed hlt
        exact ⟨turn, skipped, m, hlate⟩
      · obtain ⟨hltf, hlta⟩ := Direction.lt_of_lt_nearer hlt
        obtain ⟨turn, hlate, hturn⟩ := hmissed hltf
        obtain ⟨turn', hc', hnear, hrestart, hle⟩ :=
          hz.turn_of_otherPass?_forward ⟨by omega, by omega⟩ hread hother
        obtain ⟨skipped', hfinds'⟩ := finds_of_firstPast hv hagain
        have heq : again = found := hlate.eq_of_restart hz hfinds hfinds' ⟨by omega, by omega⟩ hc'
          hnear hrestart (by omega) (by omega) (by omega) hturn hlta
        rw [heq]
        rcases Direction.nearer_eq .forward found found with he | he
        · exact ⟨turn, skipped, m, he.symm ▸ hlate⟩
        · exact ⟨turn, skipped, m, he.symm ▸ hlate⟩
    · -- the clock has shown the minute before, so it has been put back in between
      exfalso
      have hback : t.second + z.offsetAt t.second ≤ w.startOfMinute.second := by
        have := ht.2
        omega
      rcases hend with ⟨hother, -⟩ | ⟨restart, again, hother, hagain, rfl⟩
      · exact hz.otherPass?_ne_none ⟨by omega, by omega⟩ hread hp ht.1 hback hother
      · obtain ⟨turn', hc', hnear, hrestart, hle⟩ :=
          hz.turn_of_otherPass?_forward ⟨by omega, by omega⟩ hread hother
        obtain ⟨skipped', hfinds'⟩ := finds_of_firstPast hv hagain
        exact hfinds'.not_missed_of_restart hz hc' hnear.1 hnear.2 hrestart
          (show w.startOfMinute.second ≤ _ by omega) hm hadm (by omega) htl ht hp
          (by rw [← ht.2]; exact hback) (Direction.lt_of_lt_nearer hlt).2
  · rintro ⟨turn, skipped, m, hlate⟩
    exact hlate.exists_missed hz ⟨hof, hol⟩ ⟨hrf, hrl⟩

theorem regular_lordHowe : Zone.lordHowe.Regular :=
  Zone.regular_of_transitions 36000 (by decide +kernel) (by decide +kernel)

/-- On 4 October 2026 the clocks of Lord Howe Island are put forward from two to half past.  A
quarter past two is passed over and an instant at a quarter past three stands in for it,
although at a quarter to three an occurrence is due. -/
theorem next_lordHowe : ∃ s, parse "15,45 2 * * *" = .ok s ∧ ∃ origin t r : Instant,
    ((origin.second = 1791039600 ∧ origin.nano = 0) ∧ (t.second = 1791042300 ∧ t.nano = 0) ∧
      r.second = 1791044100 ∧ r.nano = 0) ∧
    s.next Zone.lordHowe origin = .ok r ∧ s.isDue Zone.lordHowe t = .ok true ∧
    Zone.lordHowe.read t = .ok ⟨1791081900, 0, by decide, by decide, by decide⟩ := by
  obtain ⟨s, hs, hnext, hdue⟩ := exists_of_parse "15,45 2 * * *" (fun s =>
      s.next Zone.lordHowe ⟨1791039600, 0, by decide, by decide, by decide⟩ =
        .ok ⟨1791044100, 0, by decide, by decide, by decide⟩ ∧
      s.isDue Zone.lordHowe ⟨1791042300, 0, by decide, by decide, by decide⟩ = .ok true)
    (by decide +kernel)
  exact ⟨s, hs, _, _, _, ⟨⟨rfl, rfl⟩, ⟨rfl, rfl⟩, rfl, rfl⟩, hnext, hdue, by decide +kernel⟩

/-- The result of the search on Lord Howe Island is a stand-in that comes late. -/
theorem next_misses_iff_lordHowe : ∃ s, parse "15,45 2 * * *" = .ok s ∧ ∃ origin r : Instant,
    (origin.second = 1791039600 ∧ r.second = 1791044100) ∧
      s.next Zone.lordHowe origin = .ok r ∧
      ∃ turn skipped m, s.LateStandIn Zone.lordHowe origin r turn skipped m := by
  obtain ⟨s, hs, origin, t, r, ⟨⟨hos, hon⟩, ⟨hts, htn⟩, hrs, hrn⟩, hnext, hdue, hread⟩ :=
    next_lordHowe
  have hin : ∀ u : Instant, 0 ≤ u.second ∧ u.second ≤ 2000000000 → u.Inside 96 := by
    intro u hu
    unfold Stamp.Inside firstSecond lastSecond
    omega
  refine ⟨s, hs, origin, r, ⟨hos, hrs⟩, hnext, (next_misses_iff hs regular_lordHowe
    (hin origin (by omega)) (hin r (by omega)) hnext).mp ⟨t, ⟨?_, ?_⟩, ⟨_, hread, by decide⟩, hdue⟩⟩
  · exact Stamp.lt_def.mpr (by omega)
  · exact Stamp.lt_def.mpr (by omega)

/-- **A search forward misses an occurrence** where the clock is put forward by half an hour. -/
theorem next_misses : ∃ s, parse "15,45 2 * * *" = .ok s ∧ ∃ origin t r : Instant,
    (origin.second = 1791039600 ∧ t.second = 1791042300) ∧
      s.next Zone.lordHowe origin = .ok r ∧ (origin < t ∧ t < r) ∧
      Zone.lordHowe.BeginsMinute t ∧ s.isDue Zone.lordHowe t = .ok true := by
  obtain ⟨s, hs, origin, t, r, ⟨⟨hos, hon⟩, ⟨hts, htn⟩, hrs, hrn⟩, hnext, hdue, hread⟩ :=
    next_lordHowe
  refine ⟨s, hs, origin, t, r, ⟨hos, hts⟩, hnext, ⟨?_, ?_⟩, ⟨_, hread, by decide⟩, hdue⟩
  · exact Stamp.lt_def.mpr (by omega)
  · exact Stamp.lt_def.mpr (by omega)

end Schedule

end Crontab
