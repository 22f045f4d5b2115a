import Crontab.Proofs.Turns

/-! # How a search comes to its result

In a regular zone a search comes to its result by one way or by two: from the minute next to
that of the origin, and from every fold whose turn lies ahead (`Schedule.Journey`).  From either
it may come to the minutes that lie past that of the origin (`Schedule.candidate_of_passes`).
**Those that it comes to only setting out once more begin in the other pass of the fold**
(`Schedule.Finds.begins_of_restart`, `Schedule.Finds.not_meets_of_restart`).

Backward this holds where the search sets out from the start of a minute and the clocks keep
to whole minutes (`Zone.Aligned`), since a search backward leaves out the minute that the clock
shows at the origin.
-/

namespace Crontab

open Outcome

namespace Direction

variable {d : Direction} {a b c : Instant}

theorem past_trans (hab : d.Past a b) (hbc : d.Past b c) : d.Past a c := by
  cases d
  · exact Stamp.lt_trans hab hbc
  · exact Stamp.lt_trans hbc hab

theorem past_irrefl (a : Instant) : ¬ d.Past a a := by
  cases d <;> exact Stamp.lt_irrefl a

/-- Past an instant also lies what equals or lies past one that is past it. -/
theorem past_of_past_of_eq_or_past (hab : d.Past a b) (hbc : b = c ∨ d.Past b c) : d.Past a c := by
  rcases hbc with rfl | hbc
  · exact hab
  · exact past_trans hab hbc

/-- Instants at the start of a second are ordered by their seconds. -/
theorem past_iff (ha : a.nano = 0) (hb : b.nano = 0) : d.Past a b ↔ d.Passes a.second b.second := by
  cases d <;> simp only [Past, Passes, Stamp.lt_def] <;> omega

/-- What lies between two instants is as far inside the calendar as they are. -/
theorem inside_of_past {hours : Int} (ha : a.Inside hours) (hc : c.Inside hours)
    (hab : d.Past a b) (hbc : d.Past b c) : b.Inside hours := by
  obtain ⟨hf, hl⟩ := ha
  obtain ⟨hf', hl'⟩ := hc
  constructor <;> cases d <;> simp only [Past, Stamp.lt_def] at * <;> omega

theorem past_trichotomy (d : Direction) (a b : Instant) : d.Past a b ∨ a = b ∨ d.Past b a := by
  by_cases h : a = b
  · exact Or.inr (Or.inl h)
  · by_cases hab : a < b
    · cases d
      · exact Or.inl hab
      · exact Or.inr (Or.inr hab)
    · have hba := Stamp.lt_of_not_lt hab h
      cases d
      · exact Or.inr (Or.inr hba)
      · exact Or.inl hba

/-- Each of two instants is the nearer of them or lies past it. -/
theorem nearer_spec (d : Direction) (a b : Instant) :
    (d.nearer a b = a ∨ d.Past (d.nearer a b) a) ∧ (d.nearer a b = b ∨ d.Past (d.nearer a b) b) := by
  have hlt : ∀ {a b : Instant}, ¬ a ≤ b → b < a := fun h =>
    Classical.not_not.mp (mt Stamp.le_def.mpr h)
  have hle : ∀ {a b : Instant}, a ≤ b → a = b ∨ a < b := by
    intro a b hle
    by_cases hab : a = b
    · exact Or.inl hab
    · exact Or.inr (Stamp.lt_of_not_lt hle (Ne.symm hab))
  have hforward : forward.nearer a b = if a ≤ b then a else b := rfl
  have hbackward : backward.nearer a b = if a ≤ b then b else a := rfl
  cases d
  · rw [hforward]
    split
    · rename_i h
      exact ⟨Or.inl rfl, hle h⟩
    · rename_i h
      exact ⟨Or.inr (hlt h), Or.inl rfl⟩
  · rw [hbackward]
    split
    · rename_i h
      exact ⟨(hle h).imp_left Eq.symm, Or.inl rfl⟩
    · rename_i h
      exact ⟨Or.inl rfl, Or.inr (hlt h)⟩

end Direction

namespace Stamp

variable {clock : Clock}

/-- The point is the start of a minute of its clock. -/
def OnMinute (t : Stamp clock) : Prop := t.startOfMinute = t

instance (t : Stamp clock) : Decidable t.OnMinute :=
  inferInstanceAs (Decidable (_ = _))

theorem onMinute_iff {t : Stamp clock} : t.OnMinute ↔ t.second % 60 = 0 ∧ t.nano = 0 := by
  constructor
  · intro h
    have hs : t.second - t.second % 60 = t.second := congrArg Stamp.second h
    have hn : 0 = t.nano := congrArg Stamp.nano h
    exact ⟨by omega, hn.symm⟩
  · rintro ⟨hs, hn⟩
    refine eq_of_figures ?_ hn.symm
    change t.second - t.second % 60 = t.second
    omega

end Stamp

namespace Zone

variable {z : Zone} {d : Direction} {origin t x : Instant} {m : CivilMinute} {turn a b y : Int}

/-- **Clocks that keep to whole minutes**: they are ahead by whole minutes, and are turned at the
start of a minute. -/
structure WholeMinutes (z : Zone) : Prop extends Regular z where
  offset_whole : ∀ second, z.offsetAt second % 60 = 0
  turn_whole : ∀ turn, z.Changes turn → turn % 60 = 0

/-- A search backward sets out from the start of a minute on clocks that keep to whole
minutes. -/
def Aligned (z : Zone) (d : Direction) (origin : Instant) : Prop :=
  d = .backward → z.WholeMinutes ∧ origin.OnMinute

theorem aligned_forward (z : Zone) (origin : Instant) : z.Aligned .forward origin := nofun

/-- **Clocks keep to whole minutes if they are regular by their list of transitions** and all
figures in it are whole minutes. -/
theorem wholeMinutes_of_transitions (least : Int)
    (hoffsets : ∀ o ∈ z.initial :: z.transitions.map Transition.offset,
      (-86400 < o ∧ o < 86400) ∧ least ≤ o ∧ o ≤ least + 43200)
    (hapart : farApart z.transitions = true)
    (hwhole : ∀ o ∈ z.initial :: z.transitions.map Transition.offset, o % 60 = 0)
    (hturns : ∀ t ∈ z.transitions, t.second % 60 = 0) : z.WholeMinutes where
  toRegular := regular_of_transitions least hoffsets hapart
  offset_whole second := hwhole _ (offsetFrom_mem second z.initial z.transitions)
  turn_whole turn hc := by
    obtain ⟨t, ht, rfl⟩ := exists_of_offsetFrom_ne hc
    exact hturns t ht

/-- The clocks of the east of the United States in 2026, and in winter time before and after. -/
def eastern : Zone where
  name := "Eastern Time, 2026"
  initial := -18000
  transitions := [⟨1772953200, -14400⟩, ⟨1793512800, -18000⟩]

theorem wholeMinutes_eastern : eastern.WholeMinutes :=
  wholeMinutes_of_transitions (-18000) (by decide) (by decide) (by decide) (by decide)

/-- The time at which the minute started that the clock shows at a second. -/
def minuteAt (z : Zone) (second : Int) : Int :=
  second + z.offsetAt second - (second + z.offsetAt second) % 60

/-- The clock is in the minute that it shows. -/
theorem minuteAt_le (z : Zone) (second : Int) :
    z.minuteAt second ≤ second + z.offsetAt second ∧
      second + z.offsetAt second < z.minuteAt second + 60 := by
  unfold minuteAt
  omega

theorem minuteAt_mod (z : Zone) (second : Int) : z.minuteAt second % 60 = 0 := by
  unfold minuteAt
  omega

/-- What lies past the origin of an aligned search at the start of a second lies seconds past
it. -/
theorem Aligned.passes (ha : z.Aligned d origin) (ht : t.nano = 0) (h : d.Past origin t) :
    d.Passes origin.second t.second := by
  cases d with
  | forward =>
    simp only [Direction.Past, Direction.Passes, Stamp.lt_def] at *
    omega
  | backward =>
    have hn := (Stamp.onMinute_iff.mp (ha rfl).2).2
    simp only [Direction.Past, Direction.Passes, Stamp.lt_def] at *
    omega

/-- **The instant that a search takes for a minute that is shown** is the nearest past the
origin at which it begins. -/
theorem Regular.nearest_begins (hz : z.Regular) (hm : m.InUse)
    (hf : firstSecond + 180000 ≤ m.number * 60) (hl : m.number * 60 ≤ lastSecond - 180000)
    (ht : z.Begins t m) (hp : d.Past origin t) :
    ∃ x, z.Resolves d origin m (some x) ∧ z.Begins x m ∧
      ∀ u, z.Begins u m → d.Past origin u → u = x ∨ d.Past x u := by
  obtain ⟨w, hw, -⟩ := CivilMinute.exists_toWall? hm
  obtain ⟨ts, hts, hasc, hmem⟩ := hz.showing_of_begins hm hf hl hw ht
  cases hpick : d.pick origin ts with
  | none => exact absurd hp (Direction.pick_eq_none_iff.mp hpick t ((hmem t).mpr ht))
  | some x =>
    exact ⟨x, ⟨w, ts, hw, hts, hpick⟩, (hmem x).mp (Direction.pick_eq_some hpick).1,
      fun u hu hpu => Direction.pick_nearest hasc hpick ((hmem u).mpr hu) hpu⟩

/-- A minute that is passed over lies within a day of the turn. -/
theorem PassesOver.near (hz : z.WithinDay) (h : z.PassesOver turn m) :
    (m.number * 60 - turn).natAbs ≤ 86400 := by
  obtain ⟨hlow, hhigh⟩ := h
  have := hz turn
  have := hz (turn - 1)
  omega

/-- What a search takes for a minute lies past its origin. -/
theorem Resolves.past (h : z.Resolves d origin m (some x)) : d.Past origin x := by
  obtain ⟨w, ts, -, -, hpick⟩ := h
  exact (Direction.pick_eq_some hpick).2

/-- A minute that the clock comes to past the origin and is put forward past has its turn ahead
of the search. -/
theorem Spaced.meets (hz : z.Spaced) (h : z.PassesOver turn m) {u : Int}
    (hm : d.Passes (u + z.offsetAt u) (m.number * 60)) : d.Meets u turn := by
  rcases hz.sides h u with hs | hs <;> cases d <;>
    simp only [Direction.Passes, Direction.Meets] at * <;> omega

/-- An aligned search that has a turn ahead of it has the minutes ahead that the clock is put
forward past there. -/
theorem Aligned.passes_of_meets (ha : z.Aligned d origin) (hz : z.Spaced)
    (h : z.PassesOver turn m) (hm : d.Meets origin.second turn) :
    d.Passes (z.minuteAt origin.second) (m.number * 60) := by
  have hsides := hz.sides h origin.second
  obtain ⟨hmin, -⟩ := z.minuteAt_le origin.second
  cases d with
  | forward =>
    simp only [Direction.Passes, Direction.Meets] at *
    omega
  | backward =>
    have hwhole := (ha rfl).1.offset_whole origin.second
    have hsec := (Stamp.onMinute_iff.mp (ha rfl).2).1
    simp only [Direction.Passes, Direction.Meets] at *
    unfold Zone.minuteAt
    omega

end Zone

namespace Schedule

variable {s : Schedule} {z : Zone} {d : Direction} {origin r t x : Instant}
  {m m' : CivilMinute} {start restart : WallTime} {turn : Int}

/-- The turn that a stand-in comes from lies within two days and two hours of it. -/
theorem StandsIn.turn_near (hz : z.WithinDay)
    (h : s.StandsIn z turn m x) : (turn - x.second).natAbs ≤ 176400 := by
  have := (h.nearby hz).2
  have := h.passesOver.near hz
  omega

/-- **How a search in a regular zone comes to its result** `r`: it finds an instant from the
minute next to that of the origin, and one from every fold whose turn lies ahead, and `r` is the
nearest of them. -/
structure Journey (s : Schedule) (z : Zone) (d : Direction) (origin r : Instant) : Prop where
  first : ∃ (start : WallTime) (m : CivilMinute) (found : Instant),
    start.second = z.minuteAt origin.second + d.sign * 60 ∧
      s.Finds z d origin start.civil m found ∧ (r = found ∨ d.Past r found)
  again : ∀ turn, z.ShowsTwice turn (z.minuteAt origin.second) → d.Meets origin.second turn →
    ∃ (restart : WallTime) (m : CivilMinute) (found : Instant),
      restart.second = z.restartAt d turn ∧ s.Finds z d origin restart.civil m found ∧
        (r = found ∨ d.Past r found)
  result : ∃ (start : WallTime) (m : CivilMinute), s.Finds z d origin start.civil m r ∧
    (start.second = z.minuteAt origin.second + d.sign * 60 ∨
      ∃ turn, z.ShowsTwice turn (z.minuteAt origin.second) ∧ d.Meets origin.second turn ∧
        start.second = z.restartAt d turn)

/-- What the clock shows at the origin, and the minute next to it. -/
theorem second_start {w : WallTime} (hw : z.read origin = .ok w)
    (hadd : w.startOfMinute.add? d.minute = some start) :
    w.startOfMinute.second = z.minuteAt origin.second ∧
      start.second = z.minuteAt origin.second + d.sign * 60 := by
  have hws := (Zone.read_eq_ok.mp hw).1
  have hstart := ((Stamp.add?_seconds_eq_some Stamp.not_isLeap_startOfMinute).mp hadd).1
  have hshown : w.startOfMinute.second = w.second - w.second % 60 := rfl
  rw [hws] at hshown
  exact ⟨hshown, by rw [hstart, hshown]; rfl⟩

/-- Away from the ends of the calendar a search sets out. -/
theorem exists_start (hz : z.WithinDay) (d : Direction) (ho : origin.Inside 48) :
    ∃ w start, z.read origin = .ok w ∧ w.startOfMinute.add? d.minute = some start ∧
      w.startOfMinute.second = z.minuteAt origin.second ∧
      start.second = z.minuteAt origin.second + d.sign * 60 := by
  have := hz origin.second
  have hsign : d.sign.natAbs = 1 := by cases d <;> rfl
  obtain ⟨hf, hl⟩ := ho
  obtain ⟨w, hw⟩ := Zone.exists_read hz (t := origin) ⟨by omega, by omega⟩
  have hws := (Zone.read_eq_ok.mp hw).1
  have hfirst : w.startOfMinute.second = w.second - w.second % 60 := rfl
  have hf' : firstSecond ≤ w.startOfMinute.second + d.sign * 60 := by omega
  have hl' : w.startOfMinute.second + d.sign * 60 ≤ lastSecond := by omega
  obtain ⟨start, -, hs, hn⟩ := Stamp.exists_of? .wall hf' hl' w.startOfMinute.nano_lt
  have hadd : w.startOfMinute.add? d.minute = some start :=
    (Stamp.add?_seconds_eq_some Stamp.not_isLeap_startOfMinute).mpr ⟨hs, hn⟩
  exact ⟨w, start, hw, hadd, second_start hw hadd⟩

theorem journey_of_occurrence (hv : s.Valid) (hz : z.Regular) (ho : origin.Inside 96)
    (h : s.occurrence z d origin = .ok r) : s.Journey z d origin r := by
  obtain ⟨w, start, found, hw, hadd, hfound, hend⟩ := occurrence_eq_ok_iff.mp h
  obtain ⟨hshown, hstart⟩ := second_start hw hadd
  obtain ⟨m, hm⟩ := finds_of_firstPast hv hfound
  rcases hend with ⟨hother, rfl⟩ | ⟨restart, again, hother, hagain, rfl⟩
  · refine ⟨⟨start, m, r, hstart, hm, Or.inl rfl⟩, fun turn htwice hmeets => ?_,
      ⟨start, m, hm, Or.inl hstart⟩⟩
    rw [← hshown] at htwice
    obtain ⟨_, hsome, -⟩ := hz.exists_restart ho hw htwice hmeets
    rw [hother] at hsome
    cases hsome
  · obtain ⟨m', hm'⟩ := finds_of_firstPast hv hagain
    obtain ⟨hfirst, hsecond⟩ := d.nearer_spec found again
    obtain ⟨turn, htwice, hmeets, hrestart⟩ := hz.turn_of_otherPass? ho hw hother
    refine ⟨⟨start, m, found, hstart, hm, hfirst⟩, fun turn' htwice' hmeets' => ?_, ?_⟩
    · rw [← hshown] at htwice'
      obtain ⟨_, hsome, heq⟩ := hz.exists_restart ho hw htwice' hmeets'
      rw [hother] at hsome
      cases hsome
      exact ⟨restart, m', again, heq, hm', hsecond⟩
    · rcases Direction.nearer_eq d found again with he | he
      · exact ⟨start, m, by rw [he]; exact hm, Or.inl hstart⟩
      · exact ⟨restart, m', by rw [he]; exact hm',
          Or.inr ⟨turn, hshown ▸ htwice, hmeets, hrestart⟩⟩

/-! ### The minutes that a search may come to -/

/-- Whether a search sets out from the minute next to that of the origin or once more, it may come
to the minutes past that of the origin. -/
theorem candidate_of_passes (hm : m.InUse ∧ s.admits m = true)
    (hpass : d.Passes (z.minuteAt origin.second) (m.number * 60))
    (hstart : start.second = z.minuteAt origin.second + d.sign * 60 ∨
      ∃ turn, z.ShowsTwice turn (z.minuteAt origin.second) ∧ d.Meets origin.second turn ∧
        start.second = z.restartAt d turn) : s.Candidate d start.civil m := by
  refine candidate_iff.mpr ⟨hm, ?_⟩
  have hmin := z.minuteAt_mod origin.second
  rcases hstart with hstart | ⟨turn, ⟨-, hbefore, hafter⟩, -, hstart⟩
  · cases d <;> simp only [Direction.Passes, Direction.Reaches, Direction.sign] at * <;> omega
  · cases d <;> simp only [Direction.Passes, Direction.Reaches, Zone.restartAt] at * <;> omega

/-- From the minute next to that of the origin a search comes to no others. -/
theorem passes_of_candidate (hstart : start.second = z.minuteAt origin.second + d.sign * 60)
    (hm : s.Candidate d start.civil m) :
    d.Passes (z.minuteAt origin.second) (m.number * 60) := by
  have hreach := (candidate_iff.mp hm).2
  have hmin := z.minuteAt_mod origin.second
  cases d <;> simp only [Direction.Passes, Direction.Reaches, Direction.sign] at * <;> omega

/-- A search past which a minute lies on the clock is past it at its origin. -/
theorem passes_of_minuteAt (h : d.Passes (z.minuteAt origin.second) (m.number * 60)) :
    d.Passes (origin.second + z.offsetAt origin.second) (m.number * 60) := by
  unfold Zone.minuteAt at h
  cases d <;> simp only [Direction.Passes] at * <;> omega

/-- **What a search finds setting out once more**, in a minute that it would not come to
otherwise, begins that minute, and lies around the turn. -/
theorem Finds.begins_of_restart (hz : z.Regular) (ho : origin.Inside 96)
    (htwice : z.ShowsTwice turn (z.minuteAt origin.second))
    (hstart : start.second = z.restartAt d turn) (h : s.Finds z d origin start.civil m x)
    (hnot : ¬ d.Passes (z.minuteAt origin.second) (m.number * 60)) :
    z.Begins x m ∧ (x.second - turn).natAbs ≤ 176460 := by
  have hnear := htwice.near hz (z.minuteAt_le origin.second).1 (z.minuteAt_le origin.second).2
  have hfar := (h.resolves.nearby hz.within).2
  obtain ⟨hm, hreach⟩ := candidate_iff.mp h.candidate
  have hbefore := htwice.before
  have hafter := htwice.after
  have := hz.within turn
  have := hz.within (turn - 1)
  have hm60 : (m.number * 60 - turn).natAbs ≤ 86460 := by
    cases d <;> simp only [Direction.Passes, Direction.Reaches, Zone.restartAt] at * <;> omega
  obtain ⟨hf, hl⟩ := ho
  refine ⟨?_, by omega⟩
  rcases begins_or_standsIn hz hm (by omega) (by omega) h.resolves with hx | ⟨turn', hx⟩
  · exact hx
  · -- no clock is put forward so close to a fold
    have := hx.passesOver.near hz.within
    exact absurd hx.passesOver (htwice.not_passesOver hz (by omega))

/-- **The occurrence that a search finds only setting out once more** comes in the other pass
of the fold. -/
theorem Finds.not_meets_of_restart (hz : z.Regular) (ho : origin.Inside 96)
    (ha : z.Aligned d origin) (htwice : z.ShowsTwice turn (z.minuteAt origin.second))
    (hmeets : d.Meets origin.second turn) (hstart : start.second = z.restartAt d turn)
    (h : s.Finds z d origin start.civil m x)
    (hnot : ¬ d.Passes (z.minuteAt origin.second) (m.number * 60)) :
    ¬ d.Meets x.second turn := by
  obtain ⟨hx, hxnear⟩ := h.begins_of_restart hz ho htwice hstart hnot
  have hpast := ha.passes hx.1 (h.resolves.past)
  have hnear := htwice.near hz (z.minuteAt_le origin.second).1 (z.minuteAt_le origin.second).2
  have hxs := hx.2
  have hc := htwice.changes
  intro hside
  unfold Zone.minuteAt at hnot
  cases d with
  | forward =>
    simp only [Direction.Passes, Direction.Meets] at *
    have := hz.offsetAt_before hc (u := origin.second) (by omega) hmeets
    have := hz.offsetAt_before hc (u := x.second) (by omega) hside
    omega
  | backward =>
    have hwhole := (ha rfl).1.offset_whole origin.second
    have hsec := (Stamp.onMinute_iff.mp (ha rfl).2).1
    simp only [Direction.Passes, Direction.Meets] at *
    have := hz.offsetAt_after hc (u := origin.second) hmeets (by omega)
    have := hz.offsetAt_after hc (u := x.second) hside (by omega)
    omega

end Schedule

end Crontab
