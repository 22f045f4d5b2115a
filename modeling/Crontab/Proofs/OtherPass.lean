import Crontab.Proofs.Regular
import Crontab.Proofs.Rewind
import Crontab.Schedule.Occurrence

/-! # Setting out once more

A time that the clock shows on both sides of a turn lies in a fold (`Zone.ShowsTwice`).  **A
search sets out once more exactly when it sets out from such a time with the turn ahead of it**
(`Zone.Regular.turn_of_otherPass?`, `Zone.Regular.exists_restart`): forward from what the clock
shows at the turn, backward from a minute before what it would show there.  The turn is then no
more than half a day and a minute away (`Zone.ShowsTwice.near`), so no other turn is close.

So a search forward sets out once more whenever an instant ahead shows a time that the clock has
shown before (`Zone.Regular.otherPass?_ne_none`).
-/

namespace Crontab

open Outcome

/-- A turn of the clock lies ahead of a search that sets out at the second `origin`. -/
def Direction.Meets : Direction → (origin turn : Int) → Prop
  | forward, origin, turn => origin < turn
  | backward, origin, turn => turn ≤ origin

namespace Stamp

variable {clock : Clock} {a b : Stamp clock}

theorem lt_irrefl (a : Stamp clock) : ¬ a < a := by
  rw [lt_def]
  omega

/-- Two points are the only ones in an ascending list of which they are the members. -/
theorem eq_pair {ts : List (Stamp clock)} (hts : ts.Pairwise (· < ·))
    (hmem : ∀ t, t ∈ ts ↔ t = a ∨ t = b) (hab : a < b) : ts = [a, b] := by
  have hne : a ≠ b := fun he => lt_irrefl b (he ▸ hab)
  have hba : ¬ b < a := fun h => lt_irrefl a (lt_trans hab h)
  match ts, hts, hmem with
  | [], _, hmem => exact absurd ((hmem a).mpr (Or.inl rfl)) (by simp)
  | [x], _, hmem =>
    have ha : a = x := by simpa using (hmem a).mpr (Or.inl rfl)
    have hb : b = x := by simpa using (hmem b).mpr (Or.inr rfl)
    exact absurd (ha.trans hb.symm) hne
  | x :: y :: rest, hts, hmem =>
    obtain ⟨hx, hrest⟩ := List.pairwise_cons.mp hts
    obtain ⟨hy, -⟩ := List.pairwise_cons.mp hrest
    have hxy := hx y (by simp)
    obtain ⟨rfl, rfl⟩ : x = a ∧ y = b := by
      rcases (hmem x).mp (by simp) with rfl | rfl <;> rcases (hmem y).mp (by simp) with rfl | rfl
      · exact absurd hxy (lt_irrefl _)
      · exact ⟨rfl, rfl⟩
      · exact absurd hxy hba
      · exact absurd hxy (lt_irrefl _)
    cases rest with
    | nil => rfl
    | cons w rest =>
      have hyw := hy w (by simp)
      rcases (hmem w).mp (by simp) with rfl | rfl
      · exact absurd hyw hba
      · exact absurd hyw (lt_irrefl _)

end Stamp

namespace Zone

variable {z : Zone} {d : Direction} {origin : Instant} {w restart : WallTime}
  {turn second a b y : Int}

/-- Two instants that a time yields both show it. -/
theorem showings_of_showing_pair (hz : z.WithinDay) (hin : w.Inside 50) (hleap : ¬ w.IsLeap)
    {low high : Instant} (h : z.showing w = .ok [low, high]) : z.Showings w [low, high] := by
  rcases showing_spec hz hin hleap with ⟨_, ts, hts, hshow, -⟩ | ⟨t, ht, -⟩
  · rw [h] at hts
    rw [Except.ok.inj hts]
    exact hshow
  · rw [h] at ht
    cases ht

/-- **Between two instants that show a time the clock is put back**, and rewinding finds the
second from which on it has been. -/
theorem Regular.rewind_of_showing (hz : z.Regular) (hin : w.Inside 50) (hleap : ¬ w.IsLeap)
    {low high : Instant} (h : z.showing w = .ok [low, high]) :
    ∃ turn, z.rewind low high = .ok turn ∧ ¬ turn.IsLeap ∧ z.Changes turn.second ∧
      (low.second < turn.second ∧ turn.second ≤ high.second) ∧
      (low.second + z.offsetAt (turn.second - 1) = w.second ∧ low.nano = w.nano) ∧
      high.second + z.offsetAt turn.second = w.second ∧ high.nano = w.nano := by
  have hwithin := hz.within
  have hshow := showings_of_showing_pair hwithin hin hleap h
  have hlt : low < high := by simpa using hshow.ascending
  obtain ⟨hls, hln⟩ := read_eq_ok.mp (hshow.shows low (by simp))
  obtain ⟨hhs, hhn⟩ := read_eq_ok.mp (hshow.shows high (by simp))
  have hlo := hwithin low.second
  have hho := hwithin high.second
  obtain ⟨hf, hl⟩ := hin
  obtain ⟨turn, hturn, hleap', ⟨-, hle⟩, hdiffer⟩ := rewind_spec hwithin
    (Stamp.not_isLeap_of_nano hleap hln.symm) (Stamp.not_isLeap_of_nano hleap hhn.symm)
    ⟨by omega, by omega⟩ ⟨by omega, by omega⟩ hlt
  rw [Stamp.lt_def] at hlt
  obtain ⟨hafter, hbefore, hpast⟩ := hdiffer (by omega)
  -- the clock changes once in these days, so nothing else happens before the turn
  obtain ⟨change, before, after, hv⟩ := hz.exists_view w.second
  refine ⟨turn, hturn, hleap', ?_, ⟨hpast, hle⟩, ⟨?_, hln.symm⟩, by omega, hhn.symm⟩
  · rw [Changes, hafter]
    exact hbefore
  · rcases hv.offset low.second (by omega) with h1 | h1 <;>
      rcases hv.offset (turn.second - 1) (by omega) with h2 | h2 <;>
      rcases hv.offset turn.second (by omega) with h3 | h3 <;> omega

/-! ### Folds -/

/-- **The clock is put back at the turn and shows the time on both sides of it.** -/
structure ShowsTwice (z : Zone) (turn second : Int) : Prop where
  changes : z.Changes turn
  before : second < turn + z.offsetAt (turn - 1)
  after : turn + z.offsetAt turn ≤ second

/-- The time from which a search sets out once more at a turn. -/
def restartAt (z : Zone) : Direction → (turn : Int) → Int
  | .forward, turn => turn + z.offsetAt turn
  | .backward, turn => turn - 60 + z.offsetAt (turn - 1)

/-- A second at which the clock shows a minute of a fold is no more than half a day and a minute
away from the turn. -/
theorem ShowsTwice.near (hz : z.Regular) (h : z.ShowsTwice turn second) {u : Int}
    (hlow : second ≤ u + z.offsetAt u) (hhigh : u + z.offsetAt u < second + 60) :
    (u - turn).natAbs ≤ 43260 := by
  obtain ⟨hc, hbefore, hafter⟩ := h
  have hback := hz.back turn
  have hu := hz.within u
  have ha := hz.within turn
  rcases Int.lt_or_le u turn with hlt | hle
  · have := hz.offsetAt_before hc (by omega) hlt
    omega
  · have := hz.offsetAt_after hc hle (by omega)
    omega

/-- On a clock that shows times anew it has been put back, and what it shows anew it shows on
both sides of the turn. -/
theorem Spaced.exists_showsTwice (hz : z.Spaced) (hab : a < b) (hb : b + z.offsetAt b ≤ y)
    (ha : y ≤ a + z.offsetAt a) : ∃ turn, (a < turn ∧ turn ≤ b) ∧ z.ShowsTwice turn y := by
  have hao := hz.within a
  have hbo := hz.within b
  obtain ⟨turn, before, after, hv⟩ := hz.exists_view y
  have hsides : (a < turn ∧ z.offsetAt a = before) ∧ turn ≤ b ∧ z.offsetAt b = after := by
    rcases hv.offset a (by omega) with h1 | h1 <;> rcases hv.offset b (by omega) with h2 | h2 <;>
      omega
  obtain ⟨hbefore, hafter⟩ := hv.turns (by omega)
  refine ⟨turn, ⟨by omega, by omega⟩, ⟨?_, by omega, by omega⟩⟩
  rw [Changes]
  omega

/-- A search sets out before the second instant at which the clock shows its minute exactly if it
sets out before the turn. -/
theorem ShowsTwice.lt_iff (hz : z.Regular) (h : z.ShowsTwice turn w.startOfMinute.second)
    (hw : z.read origin = .ok w) {high : Instant}
    (hhs : high.second + z.offsetAt turn = w.startOfMinute.second) (hhn : high.nano = 0) :
    origin < high ↔ origin.second < turn := by
  have hws := (read_eq_ok.mp hw).1
  have hshown : w.startOfMinute.second = w.second - w.second % 60 := rfl
  have hnear := h.near hz (u := origin.second) (by omega) (by omega)
  have hafter := h.after
  rw [Stamp.lt_def]
  constructor
  · intro hpass
    apply Int.not_le.mp
    intro hle
    have := hz.offsetAt_after h.changes hle (by omega)
    omega
  · intro hlt
    omega

/-- **How a search comes to set out once more**: it finds the turn between the two instants that
show its minute, and reads the clock there or a minute before. -/
theorem otherPass?_eq_some (h : z.otherPass? d origin w = .ok (some restart)) :
    ∃ low high turn, z.showing w = .ok [low, high] ∧ z.rewind low high = .ok turn ∧
      (d = .forward ∧ origin < high ∧ z.read turn = .ok restart ∨
        d = .backward ∧ ¬ origin < high ∧ ∃ before,
          turn.add? (Duration.minutes (-1)) = some before ∧ z.read before = .ok restart) := by
  obtain ⟨ts, hts, h⟩ := bind_eq_ok.mp h
  split at h
  · rename_i low high
    obtain ⟨turn, hturn, h⟩ := bind_eq_ok.mp h
    refine ⟨low, high, turn, hts, hturn, ?_⟩
    by_cases hpass : origin < high
    · cases d with
      | forward =>
        simp only [hpass, if_true] at h
        obtain ⟨t, ht, h⟩ := bind_eq_ok.mp h
        cases h
        exact Or.inl ⟨rfl, hpass, ht⟩
      | backward => simp [hpass, pure, Except.pure] at h
    · cases d with
      | forward => simp [hpass, pure, Except.pure] at h
      | backward =>
        simp only [hpass, if_false, bind, Except.bind] at h
        cases hadd : turn.add? (Duration.minutes (-1)) with
        | none => simp [hadd, pure, Except.pure] at h
        | some before =>
          simp only [hadd] at h
          obtain ⟨t, ht, h⟩ := bind_eq_ok.mp h
          cases h
          exact Or.inr ⟨rfl, hpass, before, rfl, ht⟩
  · cases h

/-- **A search sets out once more only from a fold whose turn lies ahead of it.** -/
theorem Regular.turn_of_otherPass? (hz : z.Regular) (hin : origin.Inside 96)
    (hw : z.read origin = .ok w)
    (h : z.otherPass? d origin w.startOfMinute = .ok (some restart)) :
    ∃ turn, z.ShowsTwice turn w.startOfMinute.second ∧ d.Meets origin.second turn ∧
      restart.second = z.restartAt d turn := by
  have hws := (read_eq_ok.mp hw).1
  have ho := hz.within origin.second
  have hshown : w.startOfMinute.second = w.second - w.second % 60 := rfl
  obtain ⟨hf, hl⟩ := hin
  obtain ⟨low, high, turn, hts, hrewind, hend⟩ := otherPass?_eq_some h
  obtain ⟨_, hturn, hleap, hc, hbetween, ⟨hlow, -⟩, hhigh, hhn⟩ := hz.rewind_of_showing
    (w := w.startOfMinute) ⟨by omega, by omega⟩ Stamp.not_isLeap_startOfMinute hts
  obtain rfl := Except.ok.inj (hrewind.symm.trans hturn)
  have htwice : z.ShowsTwice turn.second w.startOfMinute.second :=
    ⟨hc, by omega, by omega⟩
  have hside := htwice.lt_iff hz hw hhigh hhn
  refine ⟨turn.second, htwice, ?_⟩
  rcases hend with ⟨rfl, hpass, hread⟩ | ⟨rfl, hpass, before, hadd, hread⟩
  · exact ⟨hside.mp hpass, (read_eq_ok.mp hread).1⟩
  · have hbs := ((Stamp.add?_seconds_eq_some hleap).mp hadd).1
    have hrs := (read_eq_ok.mp hread).1
    have := hz.offsetAt_before hc (u := before.second) (by omega) (by omega)
    refine ⟨Int.not_lt.mp (mt hside.mpr hpass), ?_⟩
    simp only [restartAt]
    omega

/-- The two instants at which the clock shows a time of a fold. -/
theorem Regular.showing_of_showsTwice (hz : z.Regular) (hin : w.Inside 50) (hleap : ¬ w.IsLeap)
    (htwice : z.ShowsTwice turn w.second) :
    ∃ low high : Instant, z.showing w = .ok [low, high] ∧ low.nano = w.nano ∧
      high.nano = w.nano ∧ low.second + z.offsetAt (turn - 1) = w.second ∧
      high.second + z.offsetAt turn = w.second := by
  obtain ⟨hc, hbefore, hafter⟩ := htwice
  have hwithin := hz.within
  have hb := hwithin (turn - 1)
  have ha := hwithin turn
  obtain ⟨hf, hl⟩ := hin
  have hin24 : w.Inside 24 := ⟨by omega, by omega⟩
  have hlowoff := hz.offsetAt_before hc (u := w.second - z.offsetAt (turn - 1)) (by omega)
    (by omega)
  have hhighoff := hz.offsetAt_after hc (u := w.second - z.offsetAt turn) (by omega) (by omega)
  obtain ⟨low, hls, hln, hlow⟩ := exists_read_eq hwithin hin24
    (u := w.second - z.offsetAt (turn - 1)) (by omega)
  obtain ⟨high, hhs, hhn, hhigh⟩ := exists_read_eq hwithin hin24
    (u := w.second - z.offsetAt turn) (by omega)
  have hin50 : w.Inside 50 := ⟨by omega, by omega⟩
  obtain ⟨ts, hts, hasc, hmem⟩ := hz.showing_of_shown hin50 hleap hlow
  have hpair : ts = [low, high] := by
    refine Stamp.eq_pair hasc (fun u => ?_) (Stamp.lt_def.mpr (by omega))
    rw [hmem]
    constructor
    · intro hu
      obtain ⟨hus, hun⟩ := read_eq_ok.mp hu
      have huo := hwithin u.second
      rcases Int.lt_or_le u.second turn with hlt | hle
      · have := hz.offsetAt_before hc (by omega) hlt
        exact Or.inl (Stamp.eq_of_figures (by omega) (by omega))
      · have := hz.offsetAt_after hc hle (by omega)
        exact Or.inr (Stamp.eq_of_figures (by omega) (by omega))
    · rintro (rfl | rfl)
      · exact hlow
      · exact hhigh
  exact ⟨low, high, hpair ▸ hts, hln, hhn, by omega, by omega⟩

/-- **A search sets out once more from every fold whose turn lies ahead of it.** -/
theorem Regular.exists_restart (hz : z.Regular) (hin : origin.Inside 96)
    (hw : z.read origin = .ok w) (htwice : z.ShowsTwice turn w.startOfMinute.second)
    (hmeets : d.Meets origin.second turn) :
    ∃ restart, z.otherPass? d origin w.startOfMinute = .ok (some restart) ∧
      restart.second = z.restartAt d turn := by
  have hwithin := hz.within
  have hws := (read_eq_ok.mp hw).1
  have ho := hwithin origin.second
  have hshown : w.startOfMinute.second = w.second - w.second % 60 := rfl
  have hnear := htwice.near hz (u := origin.second) (by omega) (by omega)
  have hinside := hin
  obtain ⟨hf, hl⟩ := hin
  have hleap : ¬ w.startOfMinute.IsLeap := Stamp.not_isLeap_startOfMinute
  have hin50 : w.startOfMinute.Inside 50 := ⟨by omega, by omega⟩
  obtain ⟨low, high, hts, hln, hhn, hls, hhs⟩ := hz.showing_of_showsTwice hin50 hleap htwice
  obtain ⟨turn', hturn', hleap', hc', hbetween, -⟩ := hz.rewind_of_showing hin50 hleap hts
  have hside := htwice.lt_iff hz hw hhs hhn
  obtain ⟨hc, hbefore, hafter⟩ := htwice
  have hback := hz.back turn
  have hsame := hz.eq_of_near hc' hc (by omega)
  -- whatever instant the search sets out from, the clock can be read there
  have hread : ∀ t : Instant, (t.second - turn).natAbs ≤ 60 → ∃ v, z.read t = .ok v := by
    intro t ht
    exact exists_read hwithin ⟨by omega, by omega⟩
  have hsome : ∃ restart, z.otherPass? d origin w.startOfMinute = .ok (some restart) := by
    cases d with
    | forward =>
      have hpass : origin < high := hside.mpr hmeets
      obtain ⟨v, hv⟩ := hread turn' (by omega)
      exact ⟨v, by simp [otherPass?, hts, hturn', hpass, hv, bind, Except.bind, pure, Except.pure]⟩
    | backward =>
      have hpass : ¬ origin < high := mt hside.mp (Int.not_lt.mpr hmeets)
      have hf' : firstSecond ≤ turn'.second + -1 * 60 := by omega
      have hl' : turn'.second + -1 * 60 ≤ lastSecond := by omega
      obtain ⟨before, -, hbs, hbn⟩ := Stamp.exists_of? .utc hf' hl' turn'.nano_lt
      have hadd : turn'.add? (Duration.minutes (-1)) = some before :=
        (Stamp.add?_seconds_eq_some hleap').mpr ⟨hbs, hbn⟩
      obtain ⟨v, hv⟩ := hread before (by omega)
      exact ⟨v, by simp [otherPass?, hts, hturn', hpass, hadd, hv, bind, Except.bind, pure,
        Except.pure]⟩
  obtain ⟨restart, hrestart⟩ := hsome
  obtain ⟨turn'', htwice'', -, heq⟩ := hz.turn_of_otherPass? hinside hw hrestart
  have hnear'' := htwice''.near hz (u := origin.second) (by omega) (by omega)
  rw [hz.eq_of_near htwice''.changes hc (by omega)] at heq
  exact ⟨restart, hrestart, heq⟩

/-! ### One direction at a time -/

/-- **A search forward sets out once more only from a turn ahead**: from the time to which the
clock is put back there, which is no later than the minute in which the search set out. -/
theorem Regular.turn_of_otherPass?_forward (hz : z.Regular) (hin : origin.Inside 96)
    (hw : z.read origin = .ok w)
    (h : z.otherPass? .forward origin w.startOfMinute = .ok (some restart)) :
    ∃ turn, z.Changes turn ∧ (origin.second < turn ∧ turn ≤ origin.second + 43200) ∧
      restart.second = turn + z.offsetAt turn ∧ restart.second ≤ w.startOfMinute.second := by
  obtain ⟨turn, htwice, hahead, hrestart⟩ := hz.turn_of_otherPass? hin hw h
  have hws := (read_eq_ok.mp hw).1
  have hshown : w.startOfMinute.second = w.second - w.second % 60 := rfl
  have hnear := htwice.near hz (u := origin.second) (by omega) (by omega)
  have hback := hz.back turn
  have hafter := htwice.after
  simp only [Direction.Meets, restartAt] at hahead hrestart
  have := hz.offsetAt_before htwice.changes (u := origin.second) (by omega) hahead
  exact ⟨turn, htwice.changes, ⟨hahead, by omega⟩, hrestart, by omega⟩

/-- **A search backward sets out once more only from a turn behind**: from the time that the
clock shows a minute before it is put back there. -/
theorem Regular.turn_of_otherPass?_backward (hz : z.Regular) (hin : origin.Inside 96)
    (hw : z.read origin = .ok w)
    (h : z.otherPass? .backward origin w.startOfMinute = .ok (some restart)) :
    ∃ turn, z.Changes turn ∧ turn ≤ origin.second ∧ z.offsetAt turn < z.offsetAt (turn - 1) ∧
      restart.second = turn - 60 + z.offsetAt (turn - 1) := by
  obtain ⟨turn, ⟨hc, hbefore, hafter⟩, hbehind, hrestart⟩ := hz.turn_of_otherPass? hin hw h
  exact ⟨turn, hc, hbehind, by omega, hrestart⟩

/-- **A search sets out once more where it has to**: whenever an instant ahead shows a time
no later than the minute in which the search set out. -/
theorem Regular.otherPass?_ne_none (hz : z.Regular) (hin : origin.Inside 96)
    (hw : z.read origin = .ok w) {t : Instant} (ht : origin < t) (htn : t.nano = 0)
    (hback : t.second + z.offsetAt t.second ≤ w.startOfMinute.second) :
    z.otherPass? .forward origin w.startOfMinute ≠ .ok none := by
  intro h
  have hws := (read_eq_ok.mp hw).1
  have hshown : w.startOfMinute.second = w.second - w.second % 60 := rfl
  rw [Stamp.lt_def] at ht
  obtain ⟨turn, ⟨hahead, -⟩, htwice⟩ := hz.exists_showsTwice (a := origin.second)
    (show _ < t.second by omega) hback (by omega)
  obtain ⟨restart, hrestart, -⟩ := hz.exists_restart (d := .forward) hin hw htwice hahead
  rw [h] at hrestart
  cases hrestart

end Zone

end Crontab
