import Crontab.Proofs.Journey

/-! # What a search comes to and what it goes past

The result of a search is an occurrence, or it stands in for a minute whose turn lies ahead of
the search (`Schedule.Journey.occurs_or_standsIn`).

**What a search goes past it goes past for a stand-in**: an occurrence nearer than the result
(`Schedule.Journey.exists_standsIn_of_missed`), and a stand-in nearer than a result beyond its
turn (`Schedule.Journey.exists_standsIn_of_standIn_missed`).  For an occurrence that the search
would come to on the way, the argument is about the clock: a minute that the search comes to
earlier and that begins at all begins earlier too (`Schedule.Finds.passesOver_of_missed`).  One
that only the other pass of a fold shows is found by the search that sets out once more
(`Schedule.Finds.passes_of_missed_of_restart`).
-/

namespace Crontab

namespace Schedule

variable {s : Schedule} {z : Zone} {d : Direction} {origin r t x : Instant}
  {m m' : CivilMinute} {start : WallTime} {turn : Int}

/-! ### What the search comes to -/

/-- **A search comes to an occurrence, or to a stand-in whose turn lies ahead of it.** -/
theorem Journey.occurs_or_standsIn (hz : z.Regular) (ho : origin.Inside 96) (hr : r.Inside 96)
    (h : s.Journey z d origin r) : d.Past origin r ∧
      (s.Occurs z r ∨ ∃ turn m, s.StandsIn z turn m r ∧ d.Meets origin.second turn) := by
  obtain ⟨start, m, hfinds, hstart⟩ := h.result
  have hfar := (hfinds.resolves.nearby hz.within).2
  obtain ⟨hm, -⟩ := candidate_iff.mp hfinds.candidate
  refine ⟨hfinds.resolves.past, ?_⟩
  by_cases hpass : d.Passes (z.minuteAt origin.second) (m.number * 60)
  · obtain ⟨hf, hl⟩ := hr
    rcases begins_or_standsIn hz hm (by omega) (by omega) hfinds.resolves with hx | ⟨turn, hx⟩
    · exact Or.inl ⟨m, hm, hx⟩
    · exact Or.inr ⟨turn, m, hx, hz.meets hx.passesOver (passes_of_minuteAt hpass)⟩
  · rcases hstart with hstart | ⟨turn, htwice, -, hstart⟩
    · exact absurd (passes_of_candidate hstart hfinds.candidate) hpass
    · exact Or.inl ⟨m, hm, (hfinds.begins_of_restart hz ho htwice hstart hpass).1⟩

/-! ### What the search goes past -/

/-- **A search that goes past an occurrence comes to a minute before that the clock is put forward
past**, on the way to the occurrence. -/
theorem Finds.passesOver_of_missed (hz : z.Regular) (ho : origin.Inside 96) (ht : t.Inside 96)
    {start : CivilMinute} (h : s.Finds z d origin start m x) (hm' : s.Candidate d start m')
    (hpass : d.Passes (z.minuteAt origin.second) (m.number * 60))
    (hbegins : z.Begins t m') (hot : d.Past origin t) (htx : d.Past t x) :
    ∃ turn, z.PassesOver turn m ∧ d.Meets origin.second turn ∧ ¬ d.Meets t.second turn := by
  have hwithin := hz.within
  have ht0 := hwithin t.second
  have ho0 := hwithin origin.second
  have hts := hbegins.2
  have hlo := passes_of_minuteAt hpass
  obtain ⟨hf, hl⟩ := ho
  obtain ⟨hf', hl'⟩ := ht
  -- the search comes to the minute of the occurrence later, or it would have taken it
  obtain ⟨x', hres', -, hnearest'⟩ :=
    hz.nearest_begins hm'.inUse (by omega) (by omega) hbegins hot
  have hpp : d.Passes m.number m'.number := by
    refine h.passes_of_ne hm' hres' ?_
    rintro rfl
    rcases hnearest' t hbegins hot with rfl | hback
    · exact Direction.past_irrefl t htx
    · exact Direction.past_irrefl t (Direction.past_trans htx hback)
  -- so on the way to the occurrence the clock comes to the minute that the search takes, which
  -- would have begun there
  have hnot : ∀ v, z.Begins v m → d.Past origin v → ¬ d.Past t v → False := by
    intro v hv hov hntv
    obtain ⟨y, hres, -, hnearest⟩ := hz.nearest_begins h.candidate.inUse
      (by cases d <;> simp only [Direction.Passes] at * <;> omega)
      (by cases d <;> simp only [Direction.Passes] at * <;> omega) hv hov
    cases hres.unique h.resolves
    rcases hnearest v hv hov with rfl | hback
    · exact hntv htx
    · exact hntv (Direction.past_trans htx hback)
  cases d with
  | forward =>
    simp only [Direction.Passes, Direction.Past, Direction.Meets, Stamp.lt_def] at *
    rcases z.exists_shown_or_passed (show origin.second ≤ t.second by omega)
      (show _ < m.number * 60 from hlo) (by omega) with ⟨u, ⟨hou, hut⟩, hu⟩ | ⟨turn, hturn, hover⟩
    · obtain ⟨v, rfl, hv⟩ := Zone.exists_begins (z := z) (by omega) (by omega) hu
      have hvn := hv.1
      exact (hnot v hv (by omega) (by omega)).elim
    · exact ⟨turn, hover, by omega, by omega⟩
  | backward =>
    simp only [Direction.Passes, Direction.Past, Direction.Meets, Stamp.lt_def] at *
    rcases z.exists_shown_or_passed (show t.second ≤ origin.second by omega)
      (show _ < m.number * 60 by omega) (by omega) with ⟨u, ⟨hou, hut⟩, hu⟩ | ⟨turn, hturn, hover⟩
    · obtain ⟨v, rfl, hv⟩ := Zone.exists_begins (z := z) (by omega) (by omega) hu
      have : v.second ≠ origin.second := by
        intro he
        rw [he] at hu
        omega
      exact (hnot v hv (by omega) (by omega)).elim
    · exact ⟨turn, hover, by omega, by omega⟩

/-- Past the origin of an aligned search the clock shows no minute from before it, unless it is put
back on the way. -/
theorem exists_showsTwice_of_not_passes (hz : z.Regular) (ha : z.Aligned d origin)
    (hbegins : z.Begins t m') (hot : d.Past origin t)
    (hnot : ¬ d.Passes (z.minuteAt origin.second) (m'.number * 60)) :
    ∃ turn, z.ShowsTwice turn (z.minuteAt origin.second) ∧ d.Meets origin.second turn ∧
      ¬ d.Meets t.second turn := by
  have hts := hbegins.2
  have hseconds := ha.passes hbegins.1 hot
  obtain ⟨hmin, -⟩ := z.minuteAt_le origin.second
  cases d with
  | forward =>
    simp only [Direction.Passes, Direction.Meets] at *
    obtain ⟨turn, ⟨hstart, hend⟩, htwice⟩ := hz.exists_showsTwice hseconds
      (show _ ≤ z.minuteAt origin.second by omega) hmin
    exact ⟨turn, htwice, hstart, by omega⟩
  | backward =>
    have hwhole := (ha rfl).1.offset_whole origin.second
    have hsec := (Stamp.onMinute_iff.mp (ha rfl).2).1
    have hshown : z.minuteAt origin.second = origin.second + z.offsetAt origin.second := by
      unfold Zone.minuteAt
      omega
    simp only [Direction.Passes, Direction.Meets] at *
    obtain ⟨turn, ⟨hstart, hend⟩, htwice⟩ := hz.exists_showsTwice hseconds
      (show _ ≤ z.minuteAt origin.second by omega) (by omega)
    exact ⟨turn, htwice, hend, by omega⟩

/-- **A search that sets out once more comes to what begins beyond the turn**, close to it. -/
theorem candidate_of_not_meets (hz : z.Regular) (ha : z.Aligned d origin) (hc : z.Changes turn)
    {restart : WallTime} (hrestart : restart.second = z.restartAt d turn)
    (hm' : m'.InUse ∧ s.admits m' = true) (hbegins : z.Begins t m')
    (hnot : ¬ d.Meets t.second turn) (hnear : (t.second - turn).natAbs ≤ 259200) :
    s.Candidate d restart.civil m' := by
  have hts := hbegins.2
  refine candidate_iff.mpr ⟨hm', ?_⟩
  cases d with
  | forward =>
    simp only [Direction.Meets, Direction.Reaches, Zone.restartAt] at *
    have := hz.offsetAt_after hc (u := t.second) (by omega) (by omega)
    omega
  | backward =>
    have hwhole := (ha rfl).1.offset_whole (turn - 1)
    have hturn := (ha rfl).1.turn_whole turn hc
    simp only [Direction.Meets, Direction.Reaches, Zone.restartAt] at *
    have := hz.offsetAt_before hc (u := t.second) (by omega) (by omega)
    omega

/-- Beyond a turn, what lies past an instant close to it is past it on the clock. -/
theorem passes_of_not_meets (hz : z.Regular) (hc : z.Changes turn) (ht : z.Begins t m')
    (hx : z.Begins x m) (htx : d.Past t x) (hnot : ¬ d.Meets t.second turn)
    (hnear : (x.second - turn).natAbs ≤ 259200) : d.Passes m'.number m.number := by
  have hts := ht.2
  have hxs := hx.2
  rw [Direction.past_iff ht.1 hx.1] at htx
  cases d with
  | forward =>
    simp only [Direction.Passes, Direction.Meets] at *
    have := hz.offsetAt_after hc (u := t.second) (by omega) (by omega)
    have := hz.offsetAt_after hc (u := x.second) (by omega) (by omega)
    omega
  | backward =>
    simp only [Direction.Passes, Direction.Meets] at *
    have := hz.offsetAt_before hc (u := t.second) (by omega) (by omega)
    have := hz.offsetAt_before hc (u := x.second) (by omega) (by omega)
    omega

/-- **A search that sets out once more goes past no occurrence beyond the turn** of a minute that it
comes to only then. -/
theorem Finds.passes_of_missed_of_restart (hz : z.Regular) (ho : origin.Inside 96)
    (ht : t.Inside 96) (ha : z.Aligned d origin) {restart : WallTime}
    (htwice : z.ShowsTwice turn (z.minuteAt origin.second)) (hmeets : d.Meets origin.second turn)
    (hrestart : restart.second = z.restartAt d turn) (h : s.Finds z d origin restart.civil m x)
    (hm' : m'.InUse ∧ s.admits m' = true) (hbegins : z.Begins t m') (hot : d.Past origin t)
    (hnot : ¬ d.Meets t.second turn) (htx : d.Past t x) :
    d.Passes (z.minuteAt origin.second) (m'.number * 60) := by
  apply Classical.byContradiction
  intro hpass'
  have hshown := z.minuteAt_le origin.second
  have hnear := htwice.near hz hshown.1 hshown.2
  have hts := hbegins.2
  have ht0 := hz.within t.second
  have htnear : (t.second - turn).natAbs ≤ 259200 := by
    have hseconds := ha.passes hbegins.1 hot
    have := hz.within origin.second
    cases d <;> simp only [Direction.Passes] at * <;> omega
  have hcand' : s.Candidate d restart.civil m' :=
    candidate_of_not_meets hz ha htwice.changes hrestart hm' hbegins hnot htnear
  -- what the search finds in the other pass comes no later than the occurrence
  obtain ⟨hf, hl⟩ := ht
  obtain ⟨x', hres', -, -⟩ := hz.nearest_begins hm'.1 (by omega) (by omega) hbegins hot
  have hreach := h.reaches hcand' hres'
  have hpass : ¬ d.Passes (z.minuteAt origin.second) (m.number * 60) := by
    cases d <;> simp only [Direction.Passes, Direction.Reaches] at * <;> omega
  obtain ⟨hx, hxnear⟩ := h.begins_of_restart hz ho htwice hrestart hpass
  have hpp := passes_of_not_meets hz htwice.changes hbegins hx htx hnot (by omega)
  cases d <;> simp only [Direction.Passes, Direction.Reaches] at * <;> omega

/-- **A search goes past no occurrence in the other pass of a fold** that shows the minute of the
origin again. -/
theorem Journey.passes_of_missed (hz : z.Regular) (ho : origin.Inside 96) (hr : r.Inside 96)
    (ha : z.Aligned d origin) (h : s.Journey z d origin r)
    (hm' : m'.InUse ∧ s.admits m' = true) (hbegins : z.Begins t m') (hot : d.Past origin t)
    (htr : d.Past t r) : d.Passes (z.minuteAt origin.second) (m'.number * 60) := by
  apply Classical.byContradiction
  intro hpass'
  obtain ⟨turn, htwice, hmeets, hnot⟩ :=
    exists_showsTwice_of_not_passes hz ha hbegins hot hpass'
  obtain ⟨restart, m, x, hrestart, hfinds, hrx⟩ := h.again turn htwice hmeets
  exact hpass' (hfinds.passes_of_missed_of_restart hz ho (Direction.inside_of_past ho hr hot htr)
    ha htwice hmeets hrestart hm' hbegins hot hnot (Direction.past_of_past_of_eq_or_past htr hrx))

/-- **A search goes past an occurrence only for a stand-in** whose turn lies between the origin and
the occurrence. -/
theorem Journey.exists_standsIn_of_missed (hz : z.Regular) (ho : origin.Inside 96)
    (hr : r.Inside 96) (ha : z.Aligned d origin) (h : s.Journey z d origin r)
    (ht : s.Occurs z t) (hot : d.Past origin t) (htr : d.Past t r) :
    ∃ turn m, s.StandsIn z turn m r ∧ d.Meets origin.second turn ∧ ¬ d.Meets t.second turn := by
  obtain ⟨m', hm', hbegins⟩ := ht
  have htin : t.Inside 96 := Direction.inside_of_past ho hr hot htr
  have hpass' := h.passes_of_missed hz ho hr ha hm' hbegins hot htr
  obtain ⟨start, m, hfinds, hstart⟩ := h.result
  by_cases hpass : d.Passes (z.minuteAt origin.second) (m.number * 60)
  · -- the minute taken is one that the clock is put forward past
    obtain ⟨turn, hover, hmeets, hnot⟩ := hfinds.passesOver_of_missed hz ho htin
      (candidate_of_passes hm' hpass' hstart) hpass hbegins hot htr
    have hfar := (hfinds.resolves.nearby hz.within).2
    have hm := hfinds.candidate.admitted
    obtain ⟨hf, hl⟩ := hr
    rcases begins_or_standsIn hz hm (by omega) (by omega) hfinds.resolves with hx | ⟨_, hx⟩
    · exact absurd hx (hover.not_begins hz.toSpaced r)
    · exact ⟨turn, m, ⟨hover, hm, hx.showing⟩, hmeets, hnot⟩
  · -- a search from the minute next to that of the origin would have found the occurrence, for
    -- no clock is put forward so close to a fold
    rcases hstart with hstart | ⟨turn, htwice, -, hstart⟩
    · exact absurd (passes_of_candidate hstart hfinds.candidate) hpass
    · exfalso
      obtain ⟨start', m₁, x₁, hstart', hfinds', hrx⟩ := h.first
      have htx : d.Past t x₁ := Direction.past_of_past_of_eq_or_past htr hrx
      obtain ⟨turn', hover, hmeets, hnot⟩ := hfinds'.passesOver_of_missed hz ho htin
        (candidate_of_passes hm' hpass' (Or.inl hstart'))
        (passes_of_candidate hstart' hfinds'.candidate) hbegins hot htx
      have hrnear := (hfinds.begins_of_restart hz ho htwice hstart hpass).2
      have hnear := htwice.near hz (z.minuteAt_le origin.second).1 (z.minuteAt_le origin.second).2
      refine htwice.not_passesOver hz ?_ hover
      cases d <;> simp only [Direction.Past, Direction.Meets, Stamp.lt_def] at * <;> omega

/-- **A search goes past a stand-in, to beyond its turn, only for a stand-in of the same turn.** -/
theorem Journey.exists_standsIn_of_standIn_missed (hz : z.Regular) (hr : r.Inside 96)
    (ha : z.Aligned d origin) (h : s.Journey z d origin r)
    (hx : s.StandsIn z turn m' x) (hmeets : d.Meets origin.second turn) (hox : d.Past origin x)
    (hxr : d.Past x r) (hnot : ¬ d.Meets r.second turn) : ∃ m, s.StandsIn z turn m r := by
  have hover := hx.passesOver
  obtain ⟨hf', hl'⟩ := hr
  have hpass' := ha.passes_of_meets hz.toSpaced hover hmeets
  obtain ⟨start, m, hfinds, hstart⟩ := h.result
  have hfar := (hfinds.resolves.nearby hz.within).2
  have hm := hfinds.candidate.admitted
  -- the search comes to the minute taken before it comes to the one of the stand-in
  have hpp : d.Passes m.number m'.number := by
    refine hfinds.passes_of_ne (candidate_of_passes hx.admitted hpass' hstart)
      (hx.resolves hox) ?_
    rintro rfl
    exact Direction.past_irrefl x hxr
  have hrsides := hz.sides hover r.second
  rcases begins_or_standsIn hz hm (by omega) (by omega) hfinds.resolves with hb | ⟨turn', hb⟩
  · -- but beyond the turn the clock has gone past both
    have hrs := hb.2
    cases d <;> simp only [Direction.Passes, Direction.Meets] at * <;> omega
  · refine ⟨m, ?_⟩
    have hover' := hb.passesOver
    have hnear := hb.turn_near hz.within
    rcases Int.lt_trichotomy turn turn' with hlt | rfl | hlt
    · have hapart := hz.apart turn turn' hover.changes hover'.changes hlt
      have hnumber := hover.number_lt hz.toSpaced hover' hlt
      cases d <;> simp only [Direction.Passes, Direction.Meets] at * <;> omega
    · exact hb
    · have hapart := hz.apart turn' turn hover'.changes hover.changes hlt
      have hnumber := hover'.number_lt hz.toSpaced hover hlt
      cases d <;> simp only [Direction.Passes, Direction.Meets] at * <;> omega

end Schedule

end Crontab
