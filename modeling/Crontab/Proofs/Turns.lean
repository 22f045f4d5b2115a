import Crontab.Proofs.Begins
import Crontab.Proofs.Finding
import Crontab.Proofs.OtherPass

/-! # Turns of a clock

A change of the offset is a turn of the clock.  Where the clock is put forward past a time, it is
before the time until the turn and after it from then on (`Zone.Spaced.sides_of_skips`), and this
tells on which side of the turn a search has to set out to come to a minute
(`Direction.Meets`).  Between two seconds the clock either shows a time that lies between its
readings or is put forward past it (`Zone.exists_shown_or_passed`).

For a minute that does not begin a single instant stands in (`Schedule.StandsIn`), within a day
and an hour of it (`Zone.showing_nearby`), and so soon after its turn that **no instant stands in
for minutes of two turns** (`Schedule.StandsIn.turn_eq`).
-/

namespace Crontab

open Outcome

namespace Zone

variable {z : Zone} {turn turn' second u a b y : Int} {m : CivilMinute}

/-! ### Before and after a turn -/

/-- **The clock is before a time until it is put forward past it, and after it from then on.** -/
theorem Spaced.sides_of_skips (hz : z.Spaced) (h : z.Skips turn second) (u : Int) :
    u < turn ∧ u + z.offsetAt u < second ∨ turn ≤ u ∧ second < u + z.offsetAt u := by
  have hc := h.changes
  obtain ⟨hlow, hhigh⟩ := h
  have hu := hz.within u
  have hb := hz.within (turn - 1)
  have ha := hz.within turn
  rcases Int.lt_or_le u turn with hlt | hle
  · refine Or.inl ⟨hlt, ?_⟩
    rcases Int.lt_or_le u (turn - 259200) with hfar | hnear
    · omega
    · have := hz.offsetAt_before hc hnear hlt
      omega
  · refine Or.inr ⟨hle, ?_⟩
    rcases Int.lt_or_le (turn + 259200) u with hfar | hnear
    · omega
    · have := hz.offsetAt_after hc hle hnear
      omega

/-- So it is with a minute. -/
theorem Spaced.sides (hz : z.Spaced) (h : z.PassesOver turn m) (u : Int) :
    u < turn ∧ u + z.offsetAt u < m.number * 60 ∨
      turn ≤ u ∧ m.number * 60 < u + z.offsetAt u :=
  hz.sides_of_skips h.skips u

/-- A minute that is passed over does not begin. -/
theorem PassesOver.not_begins (hz : z.Spaced) (h : z.PassesOver turn m) (t : Instant) :
    ¬ z.Begins t m := by
  rintro ⟨-, ht⟩
  rcases hz.sides h t.second with ⟨-, hs⟩ | ⟨-, hs⟩ <;> omega

/-- The minutes that the clock is put forward past are in the order of the turns. -/
theorem PassesOver.number_lt (hz : z.Spaced) (h : z.PassesOver turn m) {m' : CivilMinute}
    (h' : z.PassesOver turn' m') (hlt : turn < turn') : m.number < m'.number := by
  rcases hz.sides h turn with hs | hs <;> rcases hz.sides h' turn with hs' | hs' <;> omega

/-- A clock that shows a time twice is not put forward within a day and a half of it. -/
theorem ShowsTwice.not_passesOver (hz : z.Regular) (h : z.ShowsTwice turn second) {turn' : Int}
    {m : CivilMinute} (hnear : (turn' - turn).natAbs ≤ 259200) : ¬ z.PassesOver turn' m := by
  intro hpasses
  obtain rfl := hz.eq_of_near hpasses.changes h.changes hnear
  obtain ⟨hlow, hhigh⟩ := hpasses
  obtain ⟨-, hbefore, hafter⟩ := h
  omega

/-- **Between two seconds the clock shows a time or is put forward past it**, if the time lies
between its readings. -/
theorem exists_shown_or_passed (hab : a ≤ b) (ha : a + z.offsetAt a < y)
    (hb : y ≤ b + z.offsetAt b) :
    (∃ u, (a < u ∧ u ≤ b) ∧ u + z.offsetAt u = y) ∨
      ∃ turn, (a < turn ∧ turn ≤ b) ∧ turn + z.offsetAt (turn - 1) ≤ y ∧
        y < turn + z.offsetAt turn := by
  obtain ⟨n, rfl⟩ := Int.le.dest hab
  clear hab
  induction n with
  | zero =>
    rw [show a + ((0 : Nat) : Int) = a by omega] at hb
    omega
  | succ n ih =>
    have hsucc : a + ((n + 1 : Nat) : Int) - 1 = a + n := by omega
    rcases Int.lt_or_le (a + n + z.offsetAt (a + n)) y with hlt | hle
    · -- the clock comes to the time in the last second, or is put forward past it there
      rcases Int.lt_or_eq_of_le hb with hpast | heq
      · refine Or.inr ⟨a + (n + 1 : Nat), ⟨by omega, Int.le_refl _⟩, ?_, hpast⟩
        rw [hsucc]
        omega
      · exact Or.inl ⟨a + (n + 1 : Nat), ⟨by omega, Int.le_refl _⟩, heq.symm⟩
    · rcases ih hle with ⟨u, ⟨hau, hub⟩, hu⟩ | ⟨turn, ⟨hat, htb⟩, hturn⟩
      · exact Or.inl ⟨u, ⟨hau, by omega⟩, hu⟩
      · exact Or.inr ⟨turn, ⟨hat, by omega⟩, hturn⟩

end Zone

namespace Schedule

variable {s : Schedule} {z : Zone} {d : Direction} {origin x t : Instant} {m m' : CivilMinute}
  {turn turn' : Int}

/-- An occurrence is due at the instant: an admitted minute begins there. -/
def Occurs (s : Schedule) (z : Zone) (t : Instant) : Prop :=
  ∃ m : CivilMinute, (m.InUse ∧ s.admits m = true) ∧ z.Begins t m

/-- **The instant stands in for an admitted minute** that the clock is put forward past. -/
structure StandsIn (s : Schedule) (z : Zone) (turn : Int) (m : CivilMinute) (x : Instant) :
    Prop where
  passesOver : z.PassesOver turn m
  admitted : m.InUse ∧ s.admits m = true
  showing : ∃ w, m.toWall? = some w ∧ z.showing w = .ok [x]

theorem StandsIn.nearby (hz : z.WithinDay) (h : s.StandsIn z turn m x) :
    x.nano = 0 ∧ (x.second - m.number * 60).natAbs ≤ 90000 := by
  obtain ⟨w, hw, hshowing⟩ := h.showing
  obtain ⟨hws, hwn, -⟩ := CivilMinute.figures_of_toWall? hw
  obtain ⟨hn, hs⟩ := Zone.showing_nearby hz (Stamp.not_isLeap_of_nano_eq_zero hwn) hshowing
    List.mem_cons_self
  exact ⟨hn.trans hwn, by omega⟩

/-- A search takes the stand-in for the minute if it lies past the origin. -/
theorem StandsIn.resolves (h : s.StandsIn z turn m x) (hp : d.Past origin x) :
    z.Resolves d origin m (some x) := by
  obtain ⟨w, hw, hshowing⟩ := h.showing
  refine ⟨w, [x], hw, hshowing, ?_⟩
  cases d <;> simpa [Direction.pick, Direction.Past] using hp

/-- **No instant stands in for minutes of two turns.** -/
theorem StandsIn.turn_eq (hz : z.Spaced) (h : s.StandsIn z turn m x)
    (h' : s.StandsIn z turn' m' x) : turn = turn' := by
  have key : ∀ {turn turn' : Int} {m m' : CivilMinute}, s.StandsIn z turn m x →
      s.StandsIn z turn' m' x → ¬ turn < turn' := by
    intro turn turn' m m' h h' hlt
    have hc := h.passesOver.changes
    have hc' := h'.passesOver.changes
    have hnear := (h.nearby hz.within).2
    have hnear' := (h'.nearby hz.within).2
    obtain ⟨-, hhigh⟩ := h.passesOver
    obtain ⟨hlow, -⟩ := h'.passesOver
    have := hz.within turn
    have := hz.within (turn' - 1)
    have := hz.apart turn turn' hc hc' hlt
    -- between the two turns the clock stands on one offset
    have h1 := hz.offsetAt_after hc (u := turn + 100000) (by omega) (by omega)
    have h2 := hz.offsetAt_before hc' (u := turn + 100000) (by omega) (by omega)
    omega
  rcases Int.lt_trichotomy turn turn' with hlt | heq | hlt
  · exact absurd hlt (key h h')
  · exact heq
  · exact absurd hlt (key h' h)

/-- **The instant that a search takes for an admitted minute** begins it or stands in for it. -/
theorem begins_or_standsIn (hz : z.Regular) (hm : m.InUse ∧ s.admits m = true)
    (hf : firstSecond + 180000 ≤ m.number * 60) (hl : m.number * 60 ≤ lastSecond - 180000)
    (h : z.Resolves d origin m (some x)) : z.Begins x m ∨ ∃ turn, s.StandsIn z turn m x := by
  obtain ⟨w, ts, hw, hts, hpick⟩ := h
  obtain ⟨hmem, -⟩ := Direction.pick_eq_some hpick
  by_cases hbegins : ∃ u, z.Begins u m
  · obtain ⟨u, hu⟩ := hbegins
    obtain ⟨ts', hts', -, hall⟩ := hz.showing_of_begins hm.1 hf hl hw hu
    obtain rfl : ts = ts' := Except.ok.inj (hts.symm.trans hts')
    exact Or.inl ((hall x).mp hmem)
  · obtain ⟨turn, hpasses, -, w', y, hw', hy⟩ :=
      hz.passesOver hm.1 hf hl fun u hu => hbegins ⟨u, hu⟩
    obtain rfl : w = w' := Option.some.inj (hw.symm.trans hw')
    obtain rfl : ts = [y] := Except.ok.inj (hts.symm.trans hy)
    obtain rfl : x = y := List.mem_singleton.mp hmem
    exact Or.inr ⟨turn, hpasses, hm, w, hw, hy⟩

end Schedule

end Crontab
