import Crontab.Proofs.SteadyClock
import Mathlib.Data.List.Sort

/-! # Runs in universal time

A run begins a minute, so a search that sets out from it has ahead exactly what lies past it.
Therefore what lies ahead of an origin is the nearest occurrence and what lies ahead of that one
(`Schedule.NearestDue.dueAhead_iff`): no search goes back to a run that has been reported, and
none leaves out a run between two others.

Taking one run after another then carries over that **the runs taken are the nearest ones, each
once and in order** (`Schedule.Enumerates`), whatever hour, day, month or year ends between them.
There is one such list only, so runs that are read in one direction come back in reverse when they
are read in the other (`Schedule.take_enumerates`).
-/

namespace Crontab

open Outcome

namespace Runs

variable {s : Schedule} {z : Zone} {d : Direction} {origin r : Instant}

/-- The next run is what the search comes to, and the runs go on from there. -/
theorem next_past_of_ok (h : s.occurrence z d origin = .ok r) :
    (past s z d origin).next = (.ok (some r), past s z d r) := by
  simp [next, past, h]

/-- Runs end where the search has no answer. -/
theorem next_past_of_error {e : SearchError} (h : s.occurrence z d origin = .error e)
    (he : e ≠ .noReading) :
    (past s z d origin).next = (.ok none, { past s z d origin with ended := true }) := by
  cases e <;> simp [next, past, h] at he ⊢

/-- A search that comes to an instant without a reading is reported. -/
theorem next_past_of_noReading (h : s.occurrence z d origin = .error .noReading) :
    (past s z d origin).next = (.error .noReading, past s z d origin) := by
  simp [next, past, h]

end Runs

namespace Zone

variable {z : Zone} {d : Direction} {origin r t : Instant}

theorem BeginsMinute.second_mod (h : z.BeginsMinute t) :
    (t.second + z.offsetAt t.second) % 60 = 0 ∧ t.nano = 0 := by
  obtain ⟨w, hw, hstart⟩ := h
  obtain ⟨hs, hn⟩ := read_eq_ok.mp hw
  have hws : w.second - w.second % 60 = w.second := congrArg Stamp.second hstart
  have hwn : 0 = w.nano := congrArg Stamp.nano hstart
  omega

theorem LiesAhead.trans (hr : z.LiesAhead d origin r) (ht : z.LiesAhead d r t) :
    z.LiesAhead d origin t := by
  cases d
  · exact Stamp.lt_trans hr ht
  · simp only [LiesAhead] at *
    omega

/-- What lies ahead of a search lies past its origin. -/
theorem LiesAhead.past (h : z.LiesAhead d origin t) : d.Past origin t := by
  cases d
  · exact h
  · simp only [LiesAhead, Direction.Past, Stamp.lt_def] at *
    omega

/-- From the start of a minute, what begins a minute lies ahead as soon as it lies past. -/
theorem liesAhead_iff_past (hr : z.BeginsMinute r) (ht : z.BeginsMinute t) :
    z.LiesAhead d r t ↔ d.Past r t := by
  have hrs := hr.second_mod
  have hts := ht.second_mod
  cases d
  · exact Iff.rfl
  · simp only [LiesAhead, Direction.Past, Stamp.lt_def]
    omega

end Zone

namespace Schedule

variable {s : Schedule} {z : Zone} {d : Direction} {origin r t : Instant} {n : Nat}
  {ts us : List Instant}

/-- **Ahead of an origin lie the nearest occurrence and what lies ahead of that one.** -/
theorem NearestDue.dueAhead_iff (h : s.NearestDue z d origin r) :
    s.DueAhead z d origin t ↔ t = r ∨ s.DueAhead z d r t := by
  constructor
  · intro ht
    rcases h.nearest t ht with rfl | hpast
    · exact Or.inl rfl
    · exact Or.inr ⟨ht.begins, ht.due, (Zone.liesAhead_iff_past h.begins ht.begins).mpr hpast⟩
  · rintro (rfl | ht)
    · exact h.toDueAhead
    · exact ⟨ht.begins, ht.due, h.ahead.trans ht.ahead⟩

/-- **The `n` nearest occurrences ahead of an origin**, in the order in which a search meets them.
There are fewer of them only if no other lies ahead. -/
structure Enumerates (s : Schedule) (z : Zone) (d : Direction) (origin : Instant) (n : Nat)
    (ts : List Instant) : Prop where
  ordered : ts.Pairwise d.Past
  dueAhead : ∀ t ∈ ts, s.DueAhead z d origin t
  length_le : ts.length ≤ n
  complete : ∀ t, s.DueAhead z d origin t → t ∈ ts ∨ ts.length = n ∧ ∀ u ∈ ts, d.Past u t

namespace Enumerates

theorem zero : s.Enumerates z d origin 0 [] := ⟨.nil, by simp, by simp, by simp⟩

theorem of_not_dueAhead (h : ¬ ∃ t, s.DueAhead z d origin t) : s.Enumerates z d origin n [] :=
  ⟨.nil, by simp, by simp, fun t ht => absurd ⟨t, ht⟩ h⟩

/-- The nearest occurrence goes in front of those that are nearest to it. -/
theorem cons (hr : s.NearestDue z d origin r) (h : s.Enumerates z d r n ts) :
    s.Enumerates z d origin (n + 1) (r :: ts) where
  ordered := List.pairwise_cons.mpr ⟨fun t ht => (h.dueAhead t ht).ahead.past, h.ordered⟩
  dueAhead t ht := by
    rcases List.mem_cons.mp ht with rfl | ht
    · exact hr.toDueAhead
    · exact hr.dueAhead_iff.mpr (Or.inr (h.dueAhead t ht))
  length_le := Nat.succ_le_succ h.length_le
  complete t ht := by
    rcases hr.dueAhead_iff.mp ht with rfl | ht
    · exact Or.inl List.mem_cons_self
    · rcases h.complete t ht with hmem | ⟨hlen, hall⟩
      · exact Or.inl (List.mem_cons_of_mem r hmem)
      · refine Or.inr ⟨congrArg Nat.succ hlen, fun u hu => ?_⟩
        rcases List.mem_cons.mp hu with rfl | hu
        · exact ht.ahead.past
        · exact hall u hu

/-- Of two enumerations neither has an occurrence that the other lacks: the other would be full
without it, with nothing but nearer ones, and the first would have all of these too. -/
theorem subset (ht : s.Enumerates z d origin n ts) (hu : s.Enumerates z d origin n us) :
    ts ⊆ us := by
  intro t htmem
  rcases hu.complete t (ht.dueAhead t htmem) with hmem | ⟨hlen, hall⟩
  · exact hmem
  · have hsub : us ⊆ ts := by
      intro u humem
      rcases ht.complete u (hu.dueAhead u humem) with hmem | ⟨-, hall'⟩
      · exact hmem
      · exact absurd (d.past_trans (hall u humem) (hall' t htmem)) (d.past_irrefl u)
    have hnodup : us.Nodup := by
      apply hu.ordered.imp
      intro a b hab he
      exact d.past_irrefl b (he ▸ hab)
    have hperm : us.Perm ts :=
      (List.subperm_of_subset hnodup hsub).perm_of_length_le (hlen ▸ ht.length_le)
    exact hperm.mem_iff.mpr htmem

/-- **There is one enumeration only.** -/
theorem unique (ht : s.Enumerates z d origin n ts) (hu : s.Enumerates z d origin n us) :
    ts = us := by
  have hasymm : Std.Antisymm d.Past :=
    ⟨fun a b hab hba => absurd (d.past_trans hab hba) (d.past_irrefl a)⟩
  have hirrefl : Std.Irrefl d.Past := ⟨d.past_irrefl⟩
  exact List.Pairwise.eq_of_mem_iff ht.ordered hu.ordered
    fun _ => ⟨fun h => ht.subset hu h, fun h => hu.subset ht h⟩

/-- **Runs read forward are the nearest ones backward**, seen from a minute after the last. -/
theorem reverse {last after : Instant} (h : s.Enumerates Zone.utc .forward origin n ts)
    (hlast : ts.getLast? = some last) (hafter : last.add? (Duration.minutes 1) = some after) :
    s.Enumerates Zone.utc .backward after ts.length ts.reverse := by
  obtain ⟨front, rfl⟩ : ∃ front, ts = front ++ [last] := List.getLast?_eq_some_iff.mp hlast
  have hdue := h.dueAhead last (by simp)
  obtain ⟨hmod, hnano⟩ := hdue.begins.second_mod
  obtain ⟨hsecond, -⟩ :=
    (Stamp.add?_seconds_eq_some (Stamp.not_isLeap_of_nano_eq_zero hnano)).mp hafter
  have hutc : ∀ second, Zone.utc.offsetAt second = 0 := fun _ => rfl
  -- an occurrence is ahead backward exactly if it is not after the last
  have hahead : ∀ {t}, Zone.utc.BeginsMinute t →
      (Zone.utc.LiesAhead .backward after t ↔ ¬ last < t) := by
    intro t ht
    obtain ⟨htmod, htnano⟩ := ht.second_mod
    simp only [Zone.LiesAhead, Stamp.lt_def, hutc] at *
    omega
  refine ⟨List.pairwise_reverse.mpr h.ordered, fun t ht => ?_, Nat.le_of_eq List.length_reverse,
    fun t ht => ?_⟩
  · have hmem := List.mem_reverse.mp ht
    have htdue := h.dueAhead t hmem
    refine ⟨htdue.begins, htdue.due, (hahead htdue.begins).mpr fun hlt => ?_⟩
    rcases List.mem_append.mp hmem with hfront | htlast
    · have hpast : t < last :=
        (List.pairwise_append.mp h.ordered).2.2 t hfront last (by simp)
      exact Stamp.lt_irrefl t (Stamp.lt_trans hpast hlt)
    · rw [List.mem_singleton.mp htlast] at hlt
      exact Stamp.lt_irrefl last hlt
  · have hle := (hahead ht.begins).mp ht.ahead
    rw [List.mem_reverse]
    by_cases horigin : origin < t
    · rcases h.complete t ⟨ht.begins, ht.due, horigin⟩ with hmem | ⟨-, hall⟩
      · exact Or.inl hmem
      · exact absurd (hall last (by simp)) hle
    · refine Or.inr ⟨List.length_reverse, fun u hu => ?_⟩
      have hpast : origin < u := (h.dueAhead u (List.mem_reverse.mp hu)).ahead
      rcases Direction.past_trichotomy .forward t origin with hlt | rfl | hlt
      · exact Stamp.lt_trans hlt hpast
      · exact hpast
      · exact absurd hlt horigin

end Enumerates

/-- **Runs taken one after another in universal time are the nearest ones.**  The induction is on
how many are taken: each search sets out from the run found last. -/
theorem exists_take (hv : s.Valid) (d : Direction) : ∀ (n : Nat) (origin : Instant),
    ∃ ts, ((Runs.past s Zone.utc d origin).take n).1 = .ok ts ∧
      s.Enumerates Zone.utc d origin n ts
  | 0, _ => ⟨[], rfl, .zero⟩
  | n + 1, origin => by
      have houtcome : (∃ r, s.occurrence Zone.utc d origin = .ok r ∧
            s.NearestDue Zone.utc d origin r) ∨
          (s.occurrence Zone.utc d origin = .error .outOfCalendar ∧
            ¬ ∃ t, s.DueAhead Zone.utc d origin t) :=
        steady_outcome hv Zone.steady_utc d (Or.inl rfl)
      rcases houtcome with ⟨r, hr, hnearest⟩ | ⟨herr, hnone⟩
      · obtain ⟨ts, htake, hts⟩ := exists_take hv d n r
        have hnext := Runs.next_past_of_ok hr
        have htaken : (Runs.past s Zone.utc d r).take n =
            (.ok ts, ((Runs.past s Zone.utc d r).take n).2) := Prod.ext htake rfl
        refine ⟨r :: ts, ?_, hts.cons hnearest⟩
        rw [Runs.take, hnext]
        dsimp only
        rw [htaken]
      · refine ⟨[], ?_, .of_not_dueAhead hnone⟩
        rw [Runs.take, Runs.next_past_of_error herr (by decide)]

/-- **Runs in universal time enumerate the schedule.**  The next runs of an expression are the
nearest occurrences after the origin, in order, each once and none missing, and there are fewer
than asked for only if no more are left in the calendar; so are the runs backward from the minute
of the origin.  Read backward from a minute after the last, the runs come back in reverse. -/
theorem take_enumerates {expression : String} (hs : parse expression = .ok s) (origin : Instant)
    (n : Nat) :
    (∃ ts, (∀ (settings : Settings) (now : Instant), settings.zone? = none →
        settings.origin now = origin → nextRuns expression settings now n = .ok ts) ∧
      s.Enumerates Zone.utc .forward origin n ts ∧
      ∀ last after, ts.getLast? = some last → last.add? (Duration.minutes 1) = some after →
        ∃ back, s.runsIn none .backward after = .ok back ∧
          (back.take ts.length).1 = .ok ts.reverse) ∧
    ∃ back us, s.runsIn none .backward origin = .ok back ∧ (back.take n).1 = .ok us ∧
      s.Enumerates Zone.utc .backward origin n us := by
  have hv := valid_of_parse hs
  obtain ⟨ts, htake, hts⟩ := exists_take hv .forward n origin
  obtain ⟨us, hback, hus⟩ := exists_take hv .backward n origin
  refine ⟨⟨ts, ?_, hts, fun last after hlast hafter => ?_⟩, _, us, rfl, hback, hus⟩
  · rintro settings now hzone rfl
    simp only [nextRuns, ofText, hs, hzone]
    exact htake
  · obtain ⟨vs, hvs, henum⟩ := exists_take hv .backward ts.length after
    refine ⟨_, rfl, ?_⟩
    rw [(hts.reverse hlast hafter).unique henum]
    exact hvs

/-- From the day after a leap day the next one lies eight years ahead, past a century without one.
Read backward from a minute after the second, the two runs come back the other way round. -/
theorem take_enumerates_leapDays : ∃ s, parse "59 23 29 2 *" = .ok s ∧
    ∃ origin a b after : Instant, (origin.second = -2330035200 ∧ a.second = -2077660860 ∧
        b.second = -1951430460 ∧ after.second = -1951430400) ∧
      nextRuns "59 23 29 2 *" { origin? := some origin } origin 2 = .ok [a, b] ∧
      s.Enumerates Zone.utc .forward origin 2 [a, b] ∧
      ∃ back, s.runsIn none .backward after = .ok back ∧ (back.take 2).1 = .ok [b, a] := by
  let origin : Instant := ⟨-2330035200, 0, by decide, by decide, by decide⟩
  let a : Instant := ⟨-2077660860, 0, by decide, by decide, by decide⟩
  let b : Instant := ⟨-1951430460, 0, by decide, by decide, by decide⟩
  obtain ⟨s, hs, hruns⟩ := exists_of_parse "59 23 29 2 *"
    (fun s => ((Runs.past s Zone.utc .forward origin).take 2).1 = .ok [a, b]) (by decide +kernel)
  obtain ⟨⟨ts, hnext, henum, hback⟩, -⟩ := take_enumerates hs origin 2
  have hts : nextRuns "59 23 29 2 *" { origin? := some origin } origin 2 = .ok ts :=
    hnext _ _ rfl rfl
  have hab : nextRuns "59 23 29 2 *" { origin? := some origin } origin 2 = .ok [a, b] := by
    simp only [nextRuns, ofText, hs]
    exact hruns
  obtain rfl : ts = [a, b] := Except.ok.inj (hts.symm.trans hab)
  exact ⟨s, hs, origin, a, b, _, ⟨rfl, rfl, rfl, rfl⟩, hab, henum, hback b _ rfl rfl⟩

end Schedule

end Crontab
