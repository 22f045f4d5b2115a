import Crontab.Proofs.Settling

/-! # Zones whose clocks are seldom changed

Real zones change their clocks a few times a year at most, and a search relies on that: the
other instant of a fold has the offset in force half a day before or after.
`Zone.Spaced` asks for more than 72 hours between changes, and `Zone.Regular` also for
clocks that are put back by no more than half a day.

Within a day and a half of any second such a clock changes once at most (`Zone.View`), so
guessing cannot miss a time that is shown (`Zone.Spaced.not_misses`).  A time that is shown
yields **all the instants that show it** (`Zone.Regular.showing_of_shown`), and one that is
not lies **where the clock is put forward** (`Zone.View.gap`).
-/

namespace Crontab.Zone

variable {z : Zone} {target : WallTime} {second turn turn' before after u : Int}

/-- The offset that comes into force at a second is another than before. -/
def Changes (z : Zone) (second : Int) : Prop := z.offsetAt (second - 1) ≠ z.offsetAt second

/-- **Clocks that are seldom changed**: there are more than 72 hours from one change to the
next. -/
structure Spaced (z : Zone) : Prop where
  within : z.WithinDay
  apart : ∀ a b, z.Changes a → z.Changes b → a < b → a + 259200 < b

/-- Clocks that are seldom changed, and put back by no more than half a day. -/
structure Regular (z : Zone) : Prop extends Spaced z where
  back : ∀ second, z.offsetAt (second - 1) - z.offsetAt second ≤ 43200

/-! ### From the list of transitions -/

/-- The offset changes at a transition only. -/
theorem exists_of_offsetFrom_ne : ∀ {held : Int} {ts : List Transition},
    offsetFrom (second - 1) held ts ≠ offsetFrom second held ts → ∃ t ∈ ts, t.second = second
  | held, [], h => absurd rfl h
  | held, t :: ts, h => by
      by_cases ht : t.second = second
      · exact ⟨t, List.mem_cons_self, ht⟩
      · have hsame : t.second ≤ second - 1 ↔ t.second ≤ second := by omega
        simp only [offsetFrom, hsame] at h
        obtain ⟨u, hu, hus⟩ := exists_of_offsetFrom_ne h
        exact ⟨u, List.mem_cons_of_mem _ hu, hus⟩

/-- Each transition comes more than 72 hours after the one before. -/
def farApart : List Transition → Bool
  | t :: u :: ts => decide (t.second + 259200 < u.second) && farApart (u :: ts)
  | _ => true

theorem pairwise_of_farApart : ∀ {ts : List Transition}, farApart ts = true →
    ts.Pairwise fun t u => t.second + 259200 < u.second
  | [], _ => List.Pairwise.nil
  | [_], _ => List.pairwise_singleton _ _
  | t :: u :: ts, h => by
      obtain ⟨hnext, hrest⟩ := Bool.and_eq_true_iff.mp h
      have hpair := pairwise_of_farApart hrest
      refine List.pairwise_cons.mpr ⟨fun v hv => ?_, hpair⟩
      have hnext := of_decide_eq_true hnext
      rcases List.mem_cons.mp hv with rfl | hv
      · exact hnext
      · have := (List.pairwise_cons.mp hpair).1 v hv
        omega

/-- Of transitions that are far apart, a later one lies far from an earlier. -/
theorem apart_of_farApart {ts : List Transition} (h : farApart ts = true) {t u : Transition}
    (ht : t ∈ ts) (hu : u ∈ ts) (hlt : t.second < u.second) : t.second + 259200 < u.second := by
  have hpair := pairwise_of_farApart h
  clear h
  induction ts with
  | nil => cases ht
  | cons a as ih =>
    obtain ⟨hfirst, hrest⟩ := List.pairwise_cons.mp hpair
    rcases List.mem_cons.mp ht with rfl | ht'
    · rcases List.mem_cons.mp hu with rfl | hu'
      · omega
      · exact hfirst u hu'
    · rcases List.mem_cons.mp hu with rfl | hu'
      · have := hfirst t ht'
        omega
      · exact ih ht' hu' hrest

/-- **A zone is regular if its transitions are far apart and its offsets are not.** -/
theorem regular_of_transitions (least : Int)
    (hoffsets : ∀ o ∈ z.initial :: z.transitions.map Transition.offset,
      (-86400 < o ∧ o < 86400) ∧ least ≤ o ∧ o ≤ least + 43200)
    (hapart : farApart z.transitions = true) : z.Regular where
  within := withinDay_of_offsets fun o ho => (hoffsets o ho).1
  apart a b ha hb hab := by
    obtain ⟨t, ht, rfl⟩ := exists_of_offsetFrom_ne ha
    obtain ⟨u, hu, rfl⟩ := exists_of_offsetFrom_ne hb
    exact apart_of_farApart hapart ht hu hab
  back second := by
    have h1 := (hoffsets _ (offsetFrom_mem (second - 1) z.initial z.transitions)).2
    have h2 := (hoffsets _ (offsetFrom_mem second z.initial z.transitions)).2
    unfold offsetAt
    omega

/-! ### Around a change -/

/-- Where nothing changes the offset stands still. -/
theorem offsetAt_eq_of_steady {a b : Int} (hab : a ≤ b)
    (h : ∀ v, a < v → v ≤ b → ¬ z.Changes v) : z.offsetAt b = z.offsetAt a := by
  obtain ⟨n, rfl⟩ := Int.le.dest hab
  induction n with
  | zero => simp
  | succ n ih =>
    have hstep := Classical.not_not.mp (h (a + (n + 1 : Nat)) (by omega) (Int.le_refl _))
    rw [← hstep, show a + ((n + 1 : Nat) : Int) - 1 = a + n by omega]
    exact ih (by omega) fun v hv hle => h v hv (by omega)

/-- No two changes are close. -/
theorem Spaced.eq_of_near (hz : z.Spaced) (h : z.Changes turn) (h' : z.Changes turn')
    (hnear : (turn - turn').natAbs ≤ 259200) : turn = turn' := by
  rcases Int.lt_trichotomy turn turn' with hlt | heq | hlt
  · have := hz.apart turn turn' h h' hlt
    omega
  · exact heq
  · have := hz.apart turn' turn h' h hlt
    omega

theorem Spaced.offsetAt_before (hz : z.Spaced) (hc : z.Changes turn) (h : turn - 259200 ≤ u)
    (hu : u < turn) : z.offsetAt u = z.offsetAt (turn - 1) := by
  refine (offsetAt_eq_of_steady (by omega) fun v hv hle hcv => ?_).symm
  have := hz.apart v turn hcv hc (by omega)
  omega

theorem Spaced.offsetAt_after (hz : z.Spaced) (hc : z.Changes turn) (hu : turn ≤ u)
    (h : u ≤ turn + 259200) : z.offsetAt u = z.offsetAt turn := by
  refine offsetAt_eq_of_steady hu fun v hv hle hcv => ?_
  have := hz.apart turn v hc hcv hv
  omega

/-- **What the clock does within a day and a half of a second**: it runs ahead by `before`
until `turn` and by `after` from then on. -/
structure View (z : Zone) (second turn before after : Int) : Prop where
  offset : ∀ u, (u - second).natAbs ≤ 129600 →
    u < turn ∧ z.offsetAt u = before ∨ turn ≤ u ∧ z.offsetAt u = after
  turns : before ≠ after → z.offsetAt (turn - 1) = before ∧ z.offsetAt turn = after

/-- Clocks that are seldom changed change once at most in a day and a half each way. -/
theorem Spaced.exists_view (hz : z.Spaced) (second : Int) :
    ∃ turn before after, z.View second turn before after := by
  by_cases h : ∃ v, second - 129600 < v ∧ v ≤ second + 129600 ∧ z.Changes v
  · obtain ⟨turn, hlow, hhigh, hc⟩ := h
    refine ⟨turn, z.offsetAt (turn - 1), z.offsetAt turn, fun u hu => ?_, fun _ => ⟨rfl, rfl⟩⟩
    rcases Int.lt_or_le u turn with hlt | hle
    · exact Or.inl ⟨hlt, hz.offsetAt_before hc (by omega) hlt⟩
    · exact Or.inr ⟨hle, hz.offsetAt_after hc hle (by omega)⟩
  · refine ⟨second - 129600, z.offsetAt (second - 129600), z.offsetAt (second - 129600),
      fun u hu => Or.inr ⟨by omega, ?_⟩, fun hne => absurd rfl hne⟩
    exact offsetAt_eq_of_steady (by omega) fun v hv hle hcv => h ⟨v, hv, by omega, hcv⟩

/-! ### What is shown and what is passed over -/

/-- A time is shown at the instant that lies an offset in force there before it. -/
theorem exists_read_eq (hz : z.WithinDay) (hin : target.Inside 24)
    (hu : u + z.offsetAt u = target.second) :
    ∃ t : Instant, t.second = u ∧ t.nano = target.nano ∧ z.read t = .ok target := by
  have := hz u
  obtain ⟨hf, hl⟩ := hin
  have hf' : firstSecond ≤ u := by omega
  have hl' : u ≤ lastSecond := by omega
  obtain ⟨t, -, hs, hn⟩ := Stamp.exists_of? .utc hf' hl' target.nano_lt
  exact ⟨t, hs, hn, read_eq_ok.mpr ⟨by rw [hs, hu], hn.symm⟩⟩

/-- **Guessing does not miss a time that is shown.** -/
theorem View.not_misses (hv : z.View second turn before after) (hz : z.WithinDay)
    (hu : u + z.offsetAt u = second) : ¬ z.Misses second 3 second := by
  rintro ⟨h0, h1, h2, -⟩
  have := hz u
  have := hz second
  have := hz (second - z.offsetAt second)
  -- the first three guesses, and the instant that shows the time, before or after the change
  rcases hv.offset u (by omega) with hcu | hcu <;>
    rcases hv.offset second (by omega) with hc0 | hc0 <;>
    rcases hv.offset (second - z.offsetAt second) (by omega) with hc1 | hc1 <;>
    rcases hv.offset (second - z.offsetAt (second - z.offsetAt second)) (by omega)
      with hc2 | hc2 <;>
    omega

/-- Nor does it on clocks that are seldom changed. -/
theorem Spaced.not_misses (hz : z.Spaced) {t : Instant} (ht : z.read t = .ok target) :
    ¬ z.Misses target.second 3 target.second := by
  obtain ⟨_, _, _, hv⟩ := hz.exists_view target.second
  exact hv.not_misses hz.within (read_eq_ok.mp ht).1.symm

theorem View.bounds (hv : z.View second turn before after) (hz : z.WithinDay) :
    (-86400 < before ∧ before < 86400) ∧ -86400 < after ∧ after < 86400 := by
  by_cases hne : before = after
  · have := hz second
    rcases hv.offset second (by omega) with ⟨-, he⟩ | ⟨-, he⟩ <;> omega
  · obtain ⟨hb, ha⟩ := hv.turns hne
    have := hz (turn - 1)
    have := hz turn
    omega

/-- **A time that is not shown lies where the clock is put forward.** -/
theorem View.gap (hv : z.View target.second turn before after) (hz : z.WithinDay)
    (hin : target.Inside 24) (hnot : ∀ t, z.read t ≠ .ok target) :
    turn + before ≤ target.second ∧ target.second < turn + after := by
  have hmiss : ∀ u, u + z.offsetAt u ≠ target.second := by
    intro u hu
    obtain ⟨t, -, -, ht⟩ := exists_read_eq hz hin hu
    exact hnot t ht
  have := hv.bounds hz
  have hbefore := hmiss (target.second - before)
  have hafter := hmiss (target.second - after)
  constructor
  · rcases hv.offset (target.second - before) (by omega) with h | h <;> omega
  · rcases hv.offset (target.second - after) (by omega) with h | h <;> omega

/-- **A time that is shown yields all the instants that show it**, in order. -/
theorem Regular.showing_of_shown (hz : z.Regular) (hin : target.Inside 50)
    (hleap : ¬ target.IsLeap) {u : Instant} (hu : z.read u = .ok target) :
    ∃ ts, z.showing target = .ok ts ∧ ts.Pairwise (· < ·) ∧
      ∀ t, t ∈ ts ↔ z.read t = .ok target := by
  have hw := hz.within
  obtain ⟨turn, before, after, hv⟩ := hz.exists_view target.second
  rcases showing_spec hw hin hleap with ⟨t, ts, hts, hshow, ht, htwin⟩ | ⟨-, -, hmiss, -⟩
  · refine ⟨ts, hts, hshow.ascending, fun v => ⟨hshow.shows v, fun hread => ?_⟩⟩
    obtain ⟨hts', htn⟩ := read_eq_ok.mp (hshow.shows t ht)
    obtain ⟨hvs, hvn⟩ := read_eq_ok.mp hread
    by_cases hsame : v.second = t.second
    · rw [Stamp.eq_of_figures hsame (by rw [← hvn, htn])]
      exact ht
    -- the two lie on either side of the turn, no more than half a day apart
    refine htwin v hread ?_
    have := hv.bounds hw
    have := hw t.second
    have := hw v.second
    have hback := hz.back turn
    have hturns := hv.turns
    rcases hv.offset t.second (by omega) with ht' | ht' <;>
      rcases hv.offset v.second (by omega) with hv' | hv'
    · omega
    · right
      rcases hv.offset (t.second + 43200) (by omega) with h | h <;> omega
    · left
      rcases hv.offset (t.second - 43200) (by omega) with h | h <;> omega
    · omega
  · exact absurd hmiss (hz.not_misses hu)

/-- A time that is not shown yields one instant, within a day of the time an hour later or of
the time itself. -/
theorem showing_of_not_shown (hz : z.WithinDay) (hin : target.Inside 50) (hleap : ¬ target.IsLeap)
    (hnot : ∀ t, z.read t ≠ .ok target) : ∃ t, z.showing target = .ok [t] := by
  rcases showing_spec hz hin hleap with ⟨t, _, -, hshow, ht, -⟩ | ⟨t, ht, -⟩
  · exact absurd (hshow.shows t ht) (hnot t)
  · exact ⟨t, ht⟩

end Crontab.Zone
