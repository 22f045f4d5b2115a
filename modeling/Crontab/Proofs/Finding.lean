import Crontab.Proofs.Attempts

/-! # What a search finds, exactly

`Schedule.finds_of_firstPast` reads off a search what it has found.  Here is the converse: **a
search finds an instant if and only if an admitted minute has it, no minute before that has one
past the origin, and the minute is among the nearest** (`Schedule.firstPast_eq_ok_iff`).  The
result is thus settled by the minutes ahead and by the instants that stand for them, and two
searches are compared without running either.

`Schedule.occurrence_eq_ok_iff` says the same of the search for an occurrence, which may set out
twice.  None of this asks anything of the zone.
-/

namespace Crontab

open Outcome

namespace Direction

variable {d : Direction} {origin r t : Instant} {ts : List Instant}

/-- Of ascending instants a search takes the one nearest to its origin. -/
theorem pick_nearest (hts : ts.Pairwise (· < ·)) (h : d.pick origin ts = some r) (ht : t ∈ ts)
    (hp : d.Past origin t) : t = r ∨ d.Past r t := by
  have key : ∀ {us : List Instant} {q : Instant → Bool}, us.Pairwise (d.Past · ·) →
      us.find? q = some r → t ∈ us → q t = true → t = r ∨ d.Past r t := by
    intro us q hus hfind hmem hq
    obtain ⟨-, before, after, rfl, hnone⟩ := List.find?_eq_some_iff_append.mp hfind
    rcases List.mem_append.mp hmem with hm | hm
    · exact absurd hq (by simpa using hnone t hm)
    · rcases List.mem_cons.mp hm with rfl | hm
      · exact Or.inl rfl
      · have hafter := (List.pairwise_append.mp hus).2.1
        exact Or.inr ((List.pairwise_cons.mp hafter).1 t hm)
  cases d
  · exact key hts h ht (decide_eq_true hp)
  · exact key (List.pairwise_reverse.mpr hts) h (List.mem_reverse.mpr ht) (decide_eq_true hp)

end Direction

namespace Schedule

variable {s : Schedule} {z : Zone} {d : Direction} {origin r : Instant} {start : WallTime}
  {c m : CivilMinute} {n : Nat}

theorem Nearest.passes_of_ne (hc : s.Nearest d start.civil c) (hm : s.Candidate d start.civil m)
    (hne : m ≠ c) : d.Passes c.number m.number := by
  rcases Direction.reaches_iff.mp (hc.reaches m hm) with heq | hp
  · exact absurd (CivilMinute.number_inj hc.candidate.inUse.exists hm.inUse.exists heq).symm hne
  · exact hp

/-- Past a nearest minute without an instant a search finds what it finds from the minute
after. -/
theorem Nearest.finds_iff {next : CivilMinute} (hc : s.Nearest d start.civil c)
    (he : next.Exists) (hnext : next.number = c.number + d.sign) (hnone : z.Resolves d origin c none) :
    s.Finds z d origin start.civil m r ↔ s.Finds z d origin next m r := by
  have hcand := fun {m} => hc.candidate_iff (m := m) he hnext
  constructor
  · rintro ⟨hm, hres, hbefore⟩
    have hne : m ≠ c := by
      rintro rfl
      cases hnone.unique hres
    exact ⟨hcand.mpr ⟨hm, hc.passes_of_ne hm hne⟩, hres,
      fun m' hm' hp' => hbefore m' (hcand.mp hm').1 hp'⟩
  · rintro ⟨hm, hres, hbefore⟩
    refine ⟨(hcand.mp hm).1, hres, fun m' hm' hp' => ?_⟩
    by_cases hmc : m' = c
    · exact hmc ▸ hnone
    · exact hbefore m' (hcand.mpr ⟨hm', hc.passes_of_ne hm' hmc⟩) hp'

/-- While an admitted minute lies ahead, an attempt comes to a nearest minute and is followed by
the minute after it. -/
theorem Candidate.exists_nearest (hv : s.Valid) (hm : s.Candidate d start.civil m) :
    ∃ c w, s.seek d maxCorrections start.civil = .ok c ∧ s.Nearest d start.civil c ∧
      c.toWall? = some w ∧ (m ≠ c → ∃ next : WallTime, w.add? d.minute = some next ∧
        next.civil.number = c.number + d.sign) := by
  obtain ⟨c, hc⟩ := exists_seek hv start.civil_inUse hm.inUse hm.admits hm.ahead
  have hnear := nearest_of_seek hv hc
  obtain ⟨w, hw, hs, hn, -⟩ := CivilMinute.exists_toWall? hnear.candidate.inUse
  refine ⟨c, w, hc, hnear, hw, fun hne => ?_⟩
  obtain ⟨v, -, hvs, -, -⟩ := CivilMinute.exists_toWall? hm.inUse
  have hpast := hnear.passes_of_ne hm hne
  have hv1 := v.first_le
  have hv2 := v.le_last
  have hw1 := w.first_le
  have hw2 := w.le_last
  have hbounds : firstSecond ≤ w.second + d.sign * 60 ∧ w.second + d.sign * 60 ≤ lastSecond := by
    cases d <;> simp only [Direction.Passes, Direction.sign] at hpast ⊢ <;> omega
  obtain ⟨next, -, hns, hnn⟩ := Stamp.exists_of? .wall hbounds.1 hbounds.2 w.nano_lt
  have hadd : w.add? d.minute = some next :=
    (Stamp.add?_seconds_eq_some (Stamp.not_isLeap_of_nano_eq_zero hn)).mpr ⟨hns, hnn⟩
  exact ⟨next, hadd, civil_of_add_minute hs hn hadd⟩

/-- **What a search finds, exactly**: the instant that one of the nearest admitted minutes has
past the origin, where no minute before that has one. -/
theorem firstPast_eq_ok_iff (hv : s.Valid) : s.firstPast z d origin n start = .ok r ↔
    ∃ m, s.Finds z d origin start.civil m r ∧ s.AmongNearest d n start.civil m := by
  induction n generalizing start with
  | zero =>
    constructor
    · intro h
      cases h
    · rintro ⟨m, -, -, hcount⟩
      exact absurd (hcount [] List.Pairwise.nil (by simp)) (Nat.lt_irrefl 0)
  | succ n ih =>
    constructor
    · intro h
      obtain ⟨c, hc, hfound | ⟨hnone, next, hnext, hrest⟩⟩ := firstPast_succ hv h
      · refine ⟨c, ⟨hc.candidate, hfound, fun m' hm' hp => ?_⟩, hc.amongNearest⟩
        exact absurd (hc.reaches m' hm') (Direction.not_reaches.mpr hp)
      · obtain ⟨m, hm, hamong⟩ := ih.mp hrest
        have he := next.civil_inUse.exists
        exact ⟨m, (hc.finds_iff he hnext hnone).mpr hm,
          (hc.amongNearest_succ_iff he hnext).mpr (Or.inr hamong)⟩
    · rintro ⟨m, hm, hamong⟩
      obtain ⟨c, w, hseek, hc, hw, hgoes⟩ := hm.candidate.exists_nearest hv
      by_cases hmc : m = c
      · -- the nearest minute is the one that has the instant
        obtain ⟨w', ts, hw', hts, hpick⟩ := hmc ▸ hm.resolves
        obtain rfl : w = w' := Option.some.inj (hw.symm.trans hw')
        refine bind_eq_ok.mpr ⟨c, hseek, bind_eq_ok.mpr ⟨w, orOutOfCalendar_eq_ok.mpr hw,
          bind_eq_ok.mpr ⟨ts, hts, ?_⟩⟩⟩
        rw [hpick]
        rfl
      · obtain ⟨next, hadd, hnext⟩ := hgoes hmc
        have he := next.civil_inUse.exists
        have hnone := hm.before c hc.candidate (hc.passes_of_ne hm.candidate hmc)
        have hrest := ih.mpr ⟨m, (hc.finds_iff he hnext hnone).mp hm,
          ((hc.amongNearest_succ_iff he hnext).mp hamong).resolve_left hmc⟩
        obtain ⟨w', ts, hw', hts, hpick⟩ := hnone
        obtain rfl : w = w' := Option.some.inj (hw.symm.trans hw')
        refine bind_eq_ok.mpr ⟨c, hseek, bind_eq_ok.mpr ⟨w, orOutOfCalendar_eq_ok.mpr hw,
          bind_eq_ok.mpr ⟨ts, hts, ?_⟩⟩⟩
        rw [hpick]
        exact bind_eq_ok.mpr ⟨next, orOutOfCalendar_eq_ok.mpr hadd, hrest⟩

/-- The nearest minute is found if it has an instant. -/
theorem Nearest.firstPast_eq_ok (hv : s.Valid) (hc : s.Nearest d start.civil c)
    (hres : z.Resolves d origin c (some r)) :
    s.firstPast z d origin (n + 1) start = .ok r :=
  (firstPast_eq_ok_iff hv).mpr ⟨c, ⟨hc.candidate, hres, fun k hk hp =>
    absurd (hc.reaches k hk) (Direction.not_reaches.mpr hp)⟩, hc.amongNearest⟩

/-- **How a search comes to its result**: it finds an instant from the minute next to that of the
origin, and takes a nearer one if it finds one setting out once more. -/
theorem occurrence_eq_ok_iff : s.occurrence z d origin = .ok r ↔
    ∃ w start found, z.read origin = .ok w ∧ w.startOfMinute.add? d.minute = some start ∧
      s.firstPast z d origin maxAttempts start = .ok found ∧
      (z.otherPass? d origin w.startOfMinute = .ok none ∧ r = found ∨
        ∃ restart again, z.otherPass? d origin w.startOfMinute = .ok (some restart) ∧
          s.firstPast z d origin maxAttempts restart = .ok again ∧ r = d.nearer found again) := by
  constructor
  · intro h
    obtain ⟨w, hw, h⟩ := bind_eq_ok.mp h
    obtain ⟨start, hstart, h⟩ := bind_eq_ok.mp h
    obtain ⟨found, hfound, h⟩ := bind_eq_ok.mp h
    obtain ⟨other, hother, h⟩ := bind_eq_ok.mp h
    refine ⟨w, start, found, hw, orOutOfCalendar_eq_ok.mp hstart, hfound, ?_⟩
    cases other with
    | none =>
      cases h
      exact Or.inl ⟨hother, rfl⟩
    | some restart =>
      obtain ⟨again, hagain, h⟩ := bind_eq_ok.mp h
      cases h
      exact Or.inr ⟨restart, again, hother, hagain, rfl⟩
  · rintro ⟨w, start, found, hw, hstart, hfound, hend⟩
    refine bind_eq_ok.mpr ⟨w, hw, bind_eq_ok.mpr ⟨start, orOutOfCalendar_eq_ok.mpr hstart,
      bind_eq_ok.mpr ⟨found, hfound, ?_⟩⟩⟩
    rcases hend with ⟨hother, rfl⟩ | ⟨restart, again, hother, hagain, rfl⟩
    · exact bind_eq_ok.mpr ⟨none, hother, rfl⟩
    · exact bind_eq_ok.mpr ⟨some restart, hother, bind_eq_ok.mpr ⟨again, hagain, rfl⟩⟩

/-! ### Comparing what is found -/

variable {m' : CivilMinute} {x y : Instant}

/-- A minute is one that a search may come to if its number lies ahead. -/
theorem candidate_iff : s.Candidate d start.civil m ↔
    (m.InUse ∧ s.admits m = true) ∧ d.Reaches (start.second / 60) m.number := by
  rw [← Stamp.number_civil]
  constructor
  · rintro ⟨huse, hadm, hahead⟩
    exact ⟨⟨huse, hadm⟩,
      (CivilMinute.reaches_number_iff start.civil_inUse.exists huse.exists).mpr hahead⟩
  · rintro ⟨⟨huse, hadm⟩, hreach⟩
    exact ⟨huse, hadm,
      (CivilMinute.reaches_number_iff start.civil_inUse.exists huse.exists).mp hreach⟩

theorem Candidate.admitted {start : CivilMinute} (h : s.Candidate d start m) :
    m.InUse ∧ s.admits m = true := ⟨h.inUse, h.admits⟩

/-- A search has come to its minute before it comes to any other that has an instant. -/
theorem Finds.reaches {start : CivilMinute} (h : s.Finds z d origin start m x)
    (hm' : s.Candidate d start m') (hres : z.Resolves d origin m' (some y)) :
    d.Reaches m.number m'.number := by
  apply Classical.byContradiction
  intro hnot
  have hp : d.Passes m'.number m.number := by
    cases d <;> exact Int.not_le.mp hnot
  cases hres.unique (h.before m' hm' hp)

/-- A minute that has an instant past the origin nearer than the one found is passed on the
way. -/
theorem Finds.passes_of_ne {start : CivilMinute} (h : s.Finds z d origin start m x)
    (hm' : s.Candidate d start m') (hres : z.Resolves d origin m' (some y)) (hne : y ≠ x) :
    d.Passes m.number m'.number := by
  rcases Direction.reaches_iff.mp (h.reaches hm' hres) with heq | hp
  · have hmm := CivilMinute.number_inj h.candidate.inUse.exists hm'.inUse.exists heq
    exact absurd (Option.some.inj ((hmm ▸ hres).unique h.resolves)) hne
  · exact hp

/-- Two searches past the same origin find the same instant, if either might have come to what
the other found. -/
theorem Finds.eq {start restart : WallTime} (h : s.Finds z d origin start.civil m x)
    (h' : s.Finds z d origin restart.civil m' y) (hover : s.Candidate d restart.civil m)
    (hover' : s.Candidate d start.civil m') : y = x := by
  have h1 := h.reaches hover' h'.resolves
  have h2 := h'.reaches hover h.resolves
  have heq : m.number = m'.number := by
    cases d <;> simp only [Direction.Reaches] at h1 h2 <;> omega
  obtain rfl := CivilMinute.number_inj h.candidate.inUse.exists h'.candidate.inUse.exists heq
  exact Option.some.inj (h'.resolves.unique h.resolves)

end Schedule

end Crontab
