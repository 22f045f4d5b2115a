import Crontab.Proofs.Budget
import Crontab.Proofs.Settling
import Crontab.Schedule.Occurrence

/-! # The attempts of a search

A search on the wall clock takes the admitted minutes one after the other until one of them
has an instant past the origin, and gives up after `maxAttempts` of them.  So what it finds
is settled by the minutes that the schedule admits and by the instants that show them:
**it finds an instant exactly when one of the nearest admitted minutes has one past the
origin** (`Schedule.firstPast_outcome`).

`Schedule.AmongNearest` says which minutes those are without going through them, and
`Zone.Resolves` which instant a search takes for a minute.
-/

namespace Crontab

open Outcome

namespace Direction

/-- An instant that lies past the origin of a search. -/
def Past : Direction → (origin t : Instant) → Prop
  | forward, origin, t => origin < t
  | backward, origin, t => t < origin

variable {d : Direction} {origin r : Instant} {ts : List Instant}

theorem pick_eq_some (h : d.pick origin ts = some r) : r ∈ ts ∧ d.Past origin r := by
  cases d
  · have hp := List.find?_some h
    exact ⟨List.mem_of_find?_eq_some h, show origin < r from of_decide_eq_true hp⟩
  · have hp := List.find?_some h
    exact ⟨List.mem_reverse.mp (List.mem_of_find?_eq_some h),
      show r < origin from of_decide_eq_true hp⟩

theorem pick_eq_none_iff : d.pick origin ts = none ↔ ∀ t ∈ ts, ¬ d.Past origin t := by
  cases d <;> simp [pick, Past]

/-- The instant that a search meets first is one of the two. -/
theorem nearer_eq (d : Direction) (a b : Instant) : d.nearer a b = a ∨ d.nearer a b = b := by
  cases d
  · change (if a ≤ b then a else b) = a ∨ (if a ≤ b then a else b) = b
    split <;> simp
  · change (if a ≤ b then b else a) = a ∨ (if a ≤ b then b else a) = b
    split <;> simp

end Direction

/-- A search past `origin` takes the instant `r` for a minute, or none. -/
def Zone.Resolves (z : Zone) (d : Direction) (origin : Instant) (m : CivilMinute)
    (r : Option Instant) : Prop :=
  ∃ w ts, m.toWall? = some w ∧ z.showing w = .ok ts ∧ d.pick origin ts = r

/-- A search takes one instant for a minute at most. -/
theorem Zone.Resolves.unique {z : Zone} {d : Direction} {origin : Instant} {m : CivilMinute}
    {r r' : Option Instant} (h : z.Resolves d origin m r) (h' : z.Resolves d origin m r') :
    r = r' := by
  obtain ⟨w, ts, hw, hts, hpick⟩ := h
  obtain ⟨w', ts', hw', hts', hpick'⟩ := h'
  obtain rfl : w = w' := Option.some.inj (hw.symm.trans hw')
  obtain rfl : ts = ts' := Except.ok.inj (hts.symm.trans hts')
  exact hpick.symm.trans hpick'

namespace Schedule

variable {s : Schedule} {z : Zone} {d : Direction} {origin r : Instant} {start : WallTime}
  {c m : CivilMinute} {n : Nat}

/-- An admitted minute in use at which a search may arrive. -/
structure Candidate (s : Schedule) (d : Direction) (start m : CivilMinute) : Prop where
  inUse : m.InUse
  admits : s.admits m = true
  ahead : start.Ahead d m

/-- **One of the `n` admitted minutes that a search comes to first**: however many it comes
to before, they are fewer than `n`. -/
def AmongNearest (s : Schedule) (d : Direction) (n : Nat) (start m : CivilMinute) : Prop :=
  s.Candidate d start m ∧ ∀ l : List CivilMinute,
    l.Pairwise (fun a b => d.Passes a.number b.number) →
    (∀ a ∈ l, s.Candidate d start a ∧ d.Passes a.number m.number) → l.length < n

/-- The minute that a search comes to first. -/
structure Nearest (s : Schedule) (d : Direction) (start c : CivilMinute) : Prop where
  candidate : s.Candidate d start c
  reaches : ∀ m, s.Candidate d start m → d.Reaches c.number m.number

theorem nearest_of_seek (hv : s.Valid) {corrections : Nat}
    (h : s.seek d corrections start.civil = .ok c) : s.Nearest d start.civil c := by
  obtain ⟨huse, hadm, hpast, hahead⟩ := seek_spec hv start.civil_inUse.exists h
  refine ⟨⟨huse, hadm, hpast⟩, fun m hm => ?_⟩
  rw [CivilMinute.reaches_number_iff huse.exists hm.inUse.exists]
  exact hahead m hm.inUse.exists hm.admits hm.ahead

/-- Past the nearest minute the search goes on from the minute after it. -/
theorem Nearest.candidate_iff {next : CivilMinute} (hc : s.Nearest d start.civil c)
    (he : next.Exists) (hnext : next.number = c.number + d.sign) :
    s.Candidate d next m ↔ s.Candidate d start.civil m ∧ d.Passes c.number m.number := by
  have hstart := start.civil_inUse.exists
  have hcuse := hc.candidate.inUse
  constructor
  · intro hm
    have hr := (CivilMinute.reaches_number_iff he hm.inUse.exists).mpr hm.ahead
    rw [hnext, Direction.reaches_add_sign] at hr
    have hcm : c.Ahead d m :=
      (CivilMinute.reaches_number_iff hcuse.exists hm.inUse.exists).mp
        (Direction.reaches_iff.mpr (Or.inr hr))
    exact ⟨⟨hm.inUse, hm.admits, Direction.reaches_trans hc.candidate.ahead hcm⟩, hr⟩
  · rintro ⟨hm, hp⟩
    refine ⟨hm.inUse, hm.admits, ?_⟩
    rw [CivilMinute.Ahead, ← CivilMinute.reaches_number_iff he hm.inUse.exists, hnext]
    exact Direction.reaches_add_sign.mpr hp

theorem Nearest.amongNearest (hc : s.Nearest d start.civil c) :
    s.AmongNearest d (n + 1) start.civil c := by
  refine ⟨hc.candidate, fun l _ hl => ?_⟩
  cases l with
  | nil => exact Nat.succ_pos n
  | cons a as =>
    obtain ⟨ha, hp⟩ := hl a List.mem_cons_self
    exact absurd (hc.reaches a ha) (Direction.not_reaches.mpr hp)

/-- **The nearest minutes are the nearest one and those after it.** -/
theorem Nearest.amongNearest_succ_iff {next : CivilMinute} (hc : s.Nearest d start.civil c)
    (he : next.Exists) (hnext : next.number = c.number + d.sign) :
    s.AmongNearest d (n + 1) start.civil m ↔ m = c ∨ s.AmongNearest d n next m := by
  have hcand := fun {m} => hc.candidate_iff (m := m) he hnext
  constructor
  · rintro ⟨hm, hcount⟩
    rcases Direction.reaches_iff.mp (hc.reaches m hm) with heq | hp
    · exact Or.inl (CivilMinute.number_inj hm.inUse.exists hc.candidate.inUse.exists heq.symm)
    refine Or.inr ⟨hcand.mpr ⟨hm, hp⟩, fun l hpair hl => ?_⟩
    -- the nearest minute comes before whatever comes before `m` and after it
    have := hcount (c :: l)
      (List.pairwise_cons.mpr ⟨fun a ha => (hcand.mp (hl a ha).1).2, hpair⟩) (by
        intro a ha
        rcases List.mem_cons.mp ha with rfl | ha
        · exact ⟨hc.candidate, hp⟩
        · exact ⟨(hcand.mp (hl a ha).1).1, (hl a ha).2⟩)
    simpa using this
  · rintro (rfl | ⟨hm, hcount⟩)
    · exact hc.amongNearest
    refine ⟨(hcand.mp hm).1, fun l hpair hl => ?_⟩
    cases l with
    | nil => exact Nat.succ_pos n
    | cons a as =>
      obtain ⟨hfirst, hrest⟩ := List.pairwise_cons.mp hpair
      have hca := hc.reaches a (hl a List.mem_cons_self).1
      refine Nat.succ_lt_succ (hcount as hrest fun b hb => ?_)
      obtain ⟨hbc, hbm⟩ := hl b (List.mem_cons_of_mem _ hb)
      refine ⟨hcand.mpr ⟨hbc, ?_⟩, hbm⟩
      have hab := hfirst b hb
      cases d <;> simp only [Direction.Reaches, Direction.Passes] at * <;> omega

/-! ### One attempt after the other -/

/-- Away from the ends of the calendar a search learns which instant to take for a minute. -/
theorem exists_resolves (hz : z.WithinDay) (d : Direction) (origin : Instant) (hm : m.InUse)
    (hf : firstSecond + 3 * 86400 ≤ m.number * 60) (hl : m.number * 60 ≤ lastSecond - 3 * 86400) :
    ∃ r, z.Resolves d origin m r := by
  obtain ⟨w, hw, hs, hn, -⟩ := CivilMinute.exists_toWall? hm
  have hleap : ¬ w.IsLeap := Stamp.not_isLeap_of_nano_eq_zero hn
  have hin : w.Inside 50 := ⟨by omega, by omega⟩
  rcases Zone.showing_spec hz hin hleap with
    ⟨-, ts, hts, -⟩ | ⟨t, ht, -⟩
  · exact ⟨_, w, ts, hw, hts, rfl⟩
  · exact ⟨_, w, [t], hw, ht, rfl⟩

/-- The minute after another starts a minute after it. -/
theorem civil_of_add_minute {w next : WallTime} (hw : w.second = c.number * 60) (hn : w.nano = 0)
    (h : w.add? d.minute = some next) : next.civil.number = c.number + d.sign := by
  have hleap : ¬ w.IsLeap := Stamp.not_isLeap_of_nano_eq_zero hn
  have hs := ((Stamp.add?_seconds_eq_some hleap).mp h).1
  rw [Stamp.number_civil, hs]
  omega

/-- **One attempt**: the search takes the instant for the nearest minute if there is one, and
else goes on from the minute after it. -/
theorem firstPast_succ (hv : s.Valid) (h : s.firstPast z d origin (n + 1) start = .ok r) :
    ∃ c, s.Nearest d start.civil c ∧ (z.Resolves d origin c (some r) ∨
      z.Resolves d origin c none ∧ ∃ next : WallTime, next.civil.number = c.number + d.sign ∧
        s.firstPast z d origin n next = .ok r) := by
  obtain ⟨c, hc, h⟩ := bind_eq_ok.mp h
  have hnear := nearest_of_seek hv hc
  obtain ⟨w, hw, hs, hn, -⟩ := CivilMinute.exists_toWall? hnear.candidate.inUse
  rw [hw] at h
  obtain ⟨_, ⟨⟩, h⟩ := bind_eq_ok.mp h
  obtain ⟨ts, hts, h⟩ := bind_eq_ok.mp h
  refine ⟨c, hnear, ?_⟩
  cases hpick : d.pick origin ts with
  | some t =>
    rw [hpick] at h
    cases h
    exact Or.inl ⟨w, ts, hw, hts, hpick⟩
  | none =>
    rw [hpick] at h
    obtain ⟨next, hnext, h⟩ := bind_eq_ok.mp h
    exact Or.inr ⟨⟨w, ts, hw, hts, hpick⟩, next,
      civil_of_add_minute hs hn (orOutOfCalendar_eq_ok.mp hnext), h⟩

/-- **What a search finds**: the instant for an admitted minute, while the admitted minutes
before that have none past the origin. -/
structure Finds (s : Schedule) (z : Zone) (d : Direction) (origin : Instant)
    (start m : CivilMinute) (r : Instant) : Prop where
  candidate : s.Candidate d start m
  resolves : z.Resolves d origin m (some r)
  before : ∀ m', s.Candidate d start m' → d.Passes m'.number m.number →
    z.Resolves d origin m' none

theorem finds_of_firstPast (hv : s.Valid) : ∀ {n : Nat} {start : WallTime},
    s.firstPast z d origin n start = .ok r → ∃ m, s.Finds z d origin start.civil m r
  | 0, _, h => by cases h
  | n + 1, start, h => by
      obtain ⟨c, hc, hfound | ⟨hnone, next, hnext, hrest⟩⟩ := firstPast_succ hv h
      · refine ⟨c, hc.candidate, hfound, fun m' hm' hp => ?_⟩
        exact absurd (hc.reaches m' hm') (Direction.not_reaches.mpr hp)
      obtain ⟨m, hm, hfound, hbefore⟩ := finds_of_firstPast hv hrest
      have hcand := fun {m} => hc.candidate_iff (m := m) next.civil_inUse.exists hnext
      refine ⟨m, (hcand.mp hm).1, hfound, fun m' hm' hp => ?_⟩
      rcases Direction.reaches_iff.mp (hc.reaches m' hm') with heq | hpast
      · rw [← CivilMinute.number_inj hc.candidate.inUse.exists hm'.inUse.exists heq]
        exact hnone
      · exact hbefore m' (hcand.mpr ⟨hm', hpast⟩) hp

/-- Away from the ends of the calendar a search comes to a nearest minute, no more than nine
years away, and to the minute after it. -/
theorem exists_nearest (hv : s.Valid) (d : Direction) (hin : start.Inside (79200 * n + 79320)) :
    ∃ c w next, s.seek d maxCorrections start.civil = .ok c ∧ s.Nearest d start.civil c ∧
      c.toWall? = some w ∧ w.add? d.minute = some next ∧
      next.civil.number = c.number + d.sign ∧ next.Inside (79200 * n + 120) ∧
      (c.number * 60 - start.second).natAbs ≤ 284774400 ∧
      (next.second - start.second).natAbs ≤ 284774460 := by
  obtain ⟨hf, hl⟩ := hin
  obtain ⟨c, hc, hfar⟩ := exists_seek_near hv d (t := start) ⟨by omega, by omega⟩
  have hnear := nearest_of_seek hv hc
  obtain ⟨w, hw, hs, hn, -⟩ := CivilMinute.exists_toWall? hnear.candidate.inUse
  have hsign : d.sign.natAbs = 1 := by cases d <;> rfl
  have hf' : firstSecond ≤ w.second + d.sign * 60 := by omega
  have hl' : w.second + d.sign * 60 ≤ lastSecond := by omega
  obtain ⟨next, -, hns, hnn⟩ := Stamp.exists_of? .wall hf' hl' w.nano_lt
  have hadd : w.add? d.minute = some next :=
    (Stamp.add?_seconds_eq_some (Stamp.not_isLeap_of_nano_eq_zero hn)).mpr ⟨hns, hnn⟩
  exact ⟨c, w, next, hc, hnear, hw, hadd, civil_of_add_minute hs hn hadd, ⟨by omega, by omega⟩,
    by omega, by omega⟩

/-- The nearest minutes lie no further than nine years each. -/
theorem AmongNearest.near (hv : s.Valid) (hin : start.Inside (79200 * n + 120))
    (hm : s.AmongNearest d n start.civil m) :
    (m.number * 60 - start.second).natAbs ≤ n * 285120000 := by
  induction n generalizing start with
  | zero => exact absurd (hm.2 [] List.Pairwise.nil (by simp)) (Nat.lt_irrefl 0)
  | succ n ih =>
    have hin' : start.Inside (79200 * n + 79320) := by
      unfold Stamp.Inside at hin ⊢
      omega
    obtain ⟨c, w, next, -, hc, -, -, hnext, hnin, hcnear, hnnear⟩ := exists_nearest hv d hin'
    rcases (hc.amongNearest_succ_iff next.civil_inUse.exists hnext).mp hm with rfl | hm
    · omega
    · have := ih hnin hm
      omega

/-- One attempt, where the search learns which instant to take for the nearest minute. -/
theorem firstPast_step (hv : s.Valid) (hz : z.WithinDay) (d : Direction) (origin : Instant)
    (hin : start.Inside (79200 * n + 79320)) :
    ∃ c r, s.Nearest d start.civil c ∧ z.Resolves d origin c r ∧ ∃ next : WallTime,
      next.civil.number = c.number + d.sign ∧ next.Inside (79200 * n + 120) ∧
      s.firstPast z d origin (n + 1) start =
        match r with
        | some t => .ok t
        | none => s.firstPast z d origin n next := by
  obtain ⟨c, w, next, hc, hnear, hw, hadd, hnext, hnin, hfar, -⟩ := exists_nearest hv d hin
  obtain ⟨hf, hl⟩ := hin
  obtain ⟨r, w', ts, hw', hts, hpick⟩ :=
    exists_resolves hz d origin hnear.candidate.inUse (by omega) (by omega)
  obtain rfl : w = w' := Option.some.inj (hw.symm.trans hw')
  refine ⟨c, r, hnear, ⟨w, ts, hw, hts, hpick⟩, next, hnext, hnin, ?_⟩
  rw [firstPast, hc]
  cases r <;> simp [hw, hts, hpick, hadd, orOutOfCalendar, bind, Except.bind, pure, Except.pure]

/-- **A search finds an instant exactly when one of the nearest admitted minutes has one past
the origin**, and gives up when none of them has. -/
theorem firstPast_outcome (hv : s.Valid) (hz : z.WithinDay) (d : Direction) (origin : Instant)
    (n : Nat) (hin : start.Inside (79200 * n + 120)) :
    (∃ r m, s.firstPast z d origin n start = .ok r ∧ s.AmongNearest d n start.civil m ∧
      z.Resolves d origin m (some r)) ∨
    s.firstPast z d origin n start = .error .stepsExhausted ∧
      ∀ m, s.AmongNearest d n start.civil m → z.Resolves d origin m none := by
  induction n generalizing start with
  | zero =>
    refine Or.inr ⟨rfl, fun m hm => ?_⟩
    exact absurd (hm.2 [] List.Pairwise.nil (by simp)) (Nat.lt_irrefl 0)
  | succ n ih =>
    have hin' : start.Inside (79200 * n + 79320) := by
      unfold Stamp.Inside at hin ⊢
      omega
    obtain ⟨c, r, hc, hr, next, hnext, hnin, heq⟩ :=
      firstPast_step hv hz d origin hin'
    rw [heq]
    cases r with
    | some t => exact Or.inl ⟨t, c, rfl, hc.amongNearest, hr⟩
    | none =>
      have hsucc := fun {m} =>
        hc.amongNearest_succ_iff (n := n) (m := m) next.civil_inUse.exists hnext
      rcases ih hnin with ⟨t, m, ht, hm, hres⟩ | ⟨herr, hnone⟩
      · exact Or.inl ⟨t, m, ht, hsucc.mpr (Or.inr hm), hres⟩
      · refine Or.inr ⟨herr, fun m hm => ?_⟩
        rcases hsucc.mp hm with rfl | hm
        · exact hr
        · exact hnone m hm

end Schedule

end Crontab
