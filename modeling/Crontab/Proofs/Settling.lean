import Crontab.Proofs.Moving
import Crontab.Proofs.Outcome
import Crontab.Zone.Showing

/-! # Where guessing leads

To find the instants that show a wall time, a zone corrects a guess by as much as the clock
is off there.  Each guess after the first is the wall time less the offset in force at the
guess before, so all of them stay within a day of it, and away from the ends of the calendar
**the search for the instants that show a time never fails** (`Zone.showing_spec`).  What it
yields either does show the time, or every guess has missed (`Zone.Misses`).

Nothing is asked of the zone but what the clock needs to stay on the calendar: offsets of
less than a day (`Zone.WithinDay`).
-/

namespace Crontab

open Outcome

namespace Zone

variable {z : Zone} {t : Instant} {w target : WallTime}

/-- Every offset is less than a day either way. -/
def WithinDay (z : Zone) : Prop :=
  ∀ second, -86400 < z.offsetAt second ∧ z.offsetAt second < 86400

/-- The offset in force is one of those that the zone lists. -/
theorem offsetFrom_mem (second : Int) : ∀ (held : Int) (ts : List Transition),
    offsetFrom second held ts ∈ held :: ts.map Transition.offset
  | held, [] => List.mem_cons_self
  | held, t :: ts => by
      have h := offsetFrom_mem second (if t.second ≤ second then t.offset else held) ts
      rw [offsetFrom]
      rcases List.mem_cons.mp h with he | hm
      · rw [he]
        split <;> simp
      · exact List.mem_cons_of_mem _ (List.mem_cons_of_mem _ hm)

theorem withinDay_of_offsets
    (h : ∀ o ∈ z.initial :: z.transitions.map Transition.offset, -86400 < o ∧ o < 86400) :
    z.WithinDay :=
  fun second => h _ (offsetFrom_mem second z.initial z.transitions)

/-! ### Reading the clock -/

theorem read_eq_ok : z.read t = .ok w ↔
    w.second = t.second + z.offsetAt t.second ∧ w.nano = t.nano := by
  rw [← Stamp.of?_eq_some_iff, read]
  cases h : z.read? t with
  | none =>
    rw [read?] at h
    simp [h]
  | some shown =>
    rw [read?] at h
    simp [h]

/-- A day inside the calendar the clock can be read. -/
theorem exists_read (hz : z.WithinDay) (ht : t.Inside 24) : ∃ w, z.read t = .ok w := by
  have ho := hz t.second
  obtain ⟨hf, hl⟩ := ht
  have hf' : firstSecond ≤ t.second + z.offsetAt t.second := by omega
  have hl' : t.second + z.offsetAt t.second ≤ lastSecond := by omega
  obtain ⟨w, -, hs, hn⟩ := Stamp.exists_of? .wall hf' hl' t.nano_lt
  exact ⟨w, read_eq_ok.mpr ⟨hs, hn⟩⟩

/-! ### Guesses -/

/-- An instant with the figures of a wall time, but for a day at most. -/
def Nearby (target : WallTime) (t : Instant) : Prop :=
  t.nano = target.nano ∧ (t.second - target.second).natAbs ≤ 86400

/-- As many guesses in a row miss the wall time, the first at `second`. -/
def Misses (z : Zone) (target : Int) : (rounds : Nat) → (second : Int) → Prop
  | 0, _ => True
  | rounds + 1, second =>
    second + z.offsetAt second ≠ target ∧ Misses z target rounds (target - z.offsetAt second)

/-- The better of two guesses is one of them. -/
theorem closer_eq (best : Option (Nat × Instant)) (miss : Nat) (guess : Instant) :
    (closer best miss guess).2 = guess ∨ best = some (closer best miss guess) := by
  unfold closer
  split
  · exact Or.inl rfl
  · split
    · exact Or.inl rfl
    · exact Or.inr rfl

/-- A guess that shows the time is the last. -/
theorem settleFrom_of_read (h : z.read t = .ok target) (rounds : Nat)
    (best : Option (Nat × Instant)) : z.settleFrom target (rounds + 1) t best = .ok (.exact t) := by
  simp [settleFrom, h, bind, Except.bind, pure, Except.pure]

/-- **One guess**: it shows the time, or the next is the time less the offset in force
there. -/
theorem settleFrom_succ (hz : z.WithinDay) (hin : target.Inside 48) (hl : ¬ target.IsLeap)
    {guess : Instant} (hguess : Nearby target guess) (rounds : Nat)
    (best : Option (Nat × Instant)) :
    (z.read guess = .ok target ∧ z.settleFrom target (rounds + 1) guess best = .ok (.exact guess)) ∨
    (guess.second + z.offsetAt guess.second ≠ target.second ∧ ∃ (next : Instant) (miss : Nat),
      next.second = target.second - z.offsetAt guess.second ∧ Nearby target next ∧
      z.settleFrom target (rounds + 1) guess best =
        z.settleFrom target rounds next (some (closer best miss guess))) := by
  obtain ⟨hnano, hnear⟩ := hguess
  obtain ⟨hf, hlast⟩ := hin
  have ho := hz guess.second
  obtain ⟨shown, hshown⟩ := exists_read hz (t := guess) ⟨by omega, by omega⟩
  obtain ⟨hs, hn⟩ := read_eq_ok.mp hshown
  have hoff : target.since shown = Duration.seconds (target.second - shown.second) :=
    Stamp.since_seconds hl (by rw [hn, hnano])
  have hgl : ¬ guess.IsLeap := Stamp.not_isLeap_of_nano hl hnano
  by_cases hmeets : guess.second + z.offsetAt guess.second = target.second
  · have hread : z.read guess = .ok target := read_eq_ok.mpr ⟨hmeets.symm, hnano.symm⟩
    exact Or.inl ⟨hread, settleFrom_of_read hread rounds best⟩
  · refine Or.inr ⟨hmeets, ?_⟩
    have hf' : firstSecond ≤ target.second - z.offsetAt guess.second := by omega
    have hl' : target.second - z.offsetAt guess.second ≤ lastSecond := by omega
    obtain ⟨next, -, hns, hnn⟩ := Stamp.exists_of? .utc hf' hl' target.nano_lt
    refine ⟨next, (target.since shown).natAbs, hns, ⟨hnn, by omega⟩, ?_⟩
    rw [settleFrom, hshown]
    have hne : target.since shown ≠ 0 := by
      rw [hoff, Ne, Duration.seconds_eq_zero]
      omega
    have hadd : guess.add? (target.since shown) = some next := by
      rw [hoff, Stamp.add?_seconds_eq_some hgl]
      exact ⟨by omega, by rw [hnn, hnano]⟩
    simp [bind, Except.bind, hne, hadd, orOutOfCalendar]

/-- Some rounds of guessing end at an instant that shows the time, or with a guess within a
day of it when all of them have missed. -/
theorem settleFrom_spec (hz : z.WithinDay) (hin : target.Inside 48) (hl : ¬ target.IsLeap) :
    ∀ (rounds : Nat) {guess : Instant} {best : Option (Nat × Instant)}, Nearby target guess →
      (∀ b, best = some b → Nearby target b.2) → (rounds = 0 → best ≠ none) →
      (∃ t, z.settleFrom target rounds guess best = .ok (.exact t) ∧ z.read t = .ok target) ∨
      ∃ t, z.settleFrom target rounds guess best = .ok (.nearest t) ∧ Nearby target t ∧
        z.Misses target.second rounds guess.second
  | 0, guess, best, _, hbest, hne => by
      cases best with
      | none => exact absurd rfl (hne rfl)
      | some b => exact Or.inr ⟨b.2, rfl, hbest b rfl, trivial⟩
  | rounds + 1, guess, best, hguess, hbest, _ => by
      rcases settleFrom_succ hz hin hl hguess rounds best with
        ⟨hshow, heq⟩ | ⟨hmiss, next, miss, hns, hnext, heq⟩
      · exact Or.inl ⟨guess, heq, hshow⟩
      rw [heq]
      have hkept : ∀ b, some (closer best miss guess) = some b → Nearby target b.2 := by
        rintro b ⟨⟩
        rcases closer_eq best miss guess with hc | hc
        · rw [hc]
          exact hguess
        · exact hbest _ hc
      rcases settleFrom_spec hz hin hl rounds hnext hkept (fun _ => nofun) with
        hexact | ⟨t, ht, hnear, hmisses⟩
      · exact Or.inl hexact
      · rw [hns] at hmisses
        exact Or.inr ⟨t, ht, hnear, hmiss, hmisses⟩

/-- Guessing finds an instant that shows the time, or three guesses in a row miss. -/
theorem settle_spec (hz : z.WithinDay) (hin : target.Inside 48) (hl : ¬ target.IsLeap) :
    (∃ t, z.settle target = .ok (.exact t) ∧ z.read t = .ok target) ∨
    ∃ t, z.settle target = .ok (.nearest t) ∧ Nearby target t ∧
      z.Misses target.second 3 target.second := by
  have hfirst : Nearby target (target.readOn .utc) := ⟨rfl, by rw [Stamp.second_readOn]; omega⟩
  exact settleFrom_spec hz hin hl 3 hfirst (fun _ h => nomatch h) (fun h => nomatch h)

/-! ### The other instant of a fold -/

end Zone

namespace Stamp

variable {clock : Clock} {t u : Stamp clock}

theorem mem_insert {ts : List (Stamp clock)} : u ∈ insert t ts ↔ u = t ∨ u ∈ ts := by
  induction ts with
  | nil => simp [insert]
  | cons a as ih =>
    rw [insert]
    split
    · simp
    · rw [List.mem_cons, ih, List.mem_cons]
      exact or_left_comm

theorem lt_trans {a b c : Stamp clock} (hab : a < b) (hbc : b < c) : a < c := by
  rw [lt_def] at *
  omega

theorem lt_of_not_lt (h : ¬ t < u) (hne : t ≠ u) : u < t := by
  rw [lt_def] at *
  have : ¬ (t.second = u.second ∧ t.nano = u.nano) := fun ⟨hs, hn⟩ => hne (eq_of_figures hs hn)
  omega

/-- A point that is put in its place among others keeps them ascending. -/
theorem pairwise_insert {ts : List (Stamp clock)} (hts : ts.Pairwise (· < ·)) (ht : t ∉ ts) :
    (insert t ts).Pairwise (· < ·) := by
  induction ts with
  | nil => simp [insert]
  | cons a as ih =>
    obtain ⟨hfirst, hrest⟩ := List.pairwise_cons.mp hts
    obtain ⟨hne, hmem⟩ : t ≠ a ∧ t ∉ as := by simpa using ht
    rw [insert]
    split
    · rename_i hlt
      refine List.pairwise_cons.mpr ⟨fun b hb => ?_, hts⟩
      rcases List.mem_cons.mp hb with rfl | hb
      · exact hlt
      · exact lt_trans hlt (hfirst b hb)
    · rename_i hge
      refine List.pairwise_cons.mpr ⟨fun b hb => ?_, ih hrest hmem⟩
      rcases mem_insert.mp hb with rfl | hb
      · exact lt_of_not_lt hge hne
      · exact hfirst b hb

end Stamp

namespace Zone

variable {z : Zone} {t : Instant} {target : WallTime}

/-- The instants found so far: ascending, and all show the time. -/
structure Showings (z : Zone) (target : WallTime) (ts : List Instant) : Prop where
  ascending : ts.Pairwise (· < ·)
  shows : ∀ t ∈ ts, z.read t = .ok target

/-- An instant that shows the time lies within a day of it. -/
theorem nearby_of_read (hz : z.WithinDay) (h : z.read t = .ok target) : Nearby target t := by
  obtain ⟨hs, hn⟩ := read_eq_ok.mp h
  have := hz t.second
  exact ⟨hn.symm, by omega⟩

/-- **Looking for a twin** adds the instant that shows the time under the offset in force at
the probe, if there is one. -/
theorem addTwin_spec (hz : z.WithinDay) (hin : target.Inside 48) (hl : ¬ target.IsLeap)
    (probe : Option Instant) {found : List Instant} (hfound : z.Showings target found) :
    ∃ ts, z.addTwin target probe found = .ok ts ∧ z.Showings target ts ∧ (∀ t ∈ found, t ∈ ts) ∧
      ∀ p, probe = some p → ∀ t, z.read t = .ok target →
        t.second = target.second - z.offsetAt p.second → t ∈ ts := by
  cases probe with
  | none => exact ⟨found, rfl, hfound, fun _ h => h, fun _ h => nomatch h⟩
  | some p =>
    have ho := hz p.second
    obtain ⟨hf, hlast⟩ := hin
    have hf' : firstSecond ≤ target.second + -z.offsetAt p.second := by omega
    have hl' : target.second + -z.offsetAt p.second ≤ lastSecond := by omega
    obtain ⟨twin, -, hs, hn⟩ := Stamp.exists_of? .utc hf' hl' target.nano_lt
    have hadd : (target.readOn .utc).add? (Duration.seconds (-z.offsetAt p.second)) = some twin :=
      (Stamp.add?_seconds_eq_some (t := target.readOn .utc) hl).mpr ⟨hs, hn⟩
    obtain ⟨shown, hshown⟩ := exists_read hz (t := twin) ⟨by omega, by omega⟩
    have heq : z.addTwin target (some p) found =
        .ok (if shown = target ∧ twin ∉ found then twin.insert found else found) := by
      simp [addTwin, hadd, hshown, bind, Except.bind, pure, Except.pure]
    -- whatever shows the time under that offset is the twin
    have htwin : ∀ t, z.read t = .ok target → t.second = target.second - z.offsetAt p.second →
        t = twin ∧ shown = target := by
      intro t ht hts
      have he : t = twin := Stamp.eq_of_figures (by omega) (by rw [hn, (read_eq_ok.mp ht).2])
      rw [he, hshown] at ht
      exact ⟨he, Except.ok.inj ht⟩
    refine ⟨_, heq, ?_⟩
    split
    · rename_i hnew
      refine ⟨⟨Stamp.pairwise_insert hfound.ascending hnew.2, fun t ht => ?_⟩,
        fun t ht => Stamp.mem_insert.mpr (Or.inr ht), ?_⟩
      · rcases Stamp.mem_insert.mp ht with rfl | ht
        · rw [hshown, hnew.1]
        · exact hfound.shows t ht
      · rintro _ ⟨⟩ t ht hts
        exact Stamp.mem_insert.mpr (Or.inl (htwin t ht hts).1)
    · rename_i hold
      refine ⟨hfound, fun _ h => h, ?_⟩
      rintro _ ⟨⟩ t ht hts
      obtain ⟨rfl, hshow⟩ := htwin t ht hts
      exact Classical.byContradiction fun hne => hold ⟨hshow, hne⟩

/-! ### The instants that show a time -/

/-- **The search for the instants that show a time never fails.**  Either all it yields show
the time, those under the offsets half a day around among them, or all guesses have missed
and the one instant it yields lies within a day of the time or of the time an hour later. -/
theorem showing_spec (hz : z.WithinDay) (hin : target.Inside 50) (hl : ¬ target.IsLeap) :
    (∃ t ts, z.showing target = .ok ts ∧ z.Showings target ts ∧ t ∈ ts ∧
      ∀ u, z.read u = .ok target → u.second = target.second - z.offsetAt (t.second - 43200) ∨
        u.second = target.second - z.offsetAt (t.second + 43200) → u ∈ ts) ∨
    ∃ t, z.showing target = .ok [t] ∧ z.Misses target.second 3 target.second ∧
      t.nano = target.nano ∧ (t.second - target.second).natAbs ≤ 90000 := by
  obtain ⟨hf, hlast⟩ := hin
  have hin2 : target.Inside 48 := ⟨by omega, by omega⟩
  rcases settle_spec hz hin2 hl with ⟨t, hsettle, hread⟩ | ⟨kept, hsettle, hkept, hmiss⟩
  · left
    obtain ⟨hnano, hnear⟩ := nearby_of_read hz hread
    have htl : ¬ t.IsLeap := Stamp.not_isLeap_of_nano hl hnano
    have hprobe : ∀ n : Int, n.natAbs ≤ 12 → ∃ p : Instant,
        t.add? (Duration.hours n) = some p ∧ p.second = t.second + n * 3600 := by
      intro n hn
      have hf' : firstSecond ≤ t.second + n * 3600 := by omega
      have hl' : t.second + n * 3600 ≤ lastSecond := by omega
      obtain ⟨p, -, hps, hpn⟩ := Stamp.exists_of? .utc hf' hl' t.nano_lt
      exact ⟨p, (Stamp.add?_seconds_eq_some htl).mpr ⟨hps, hpn⟩, hps⟩
    obtain ⟨before, hbefore, hbs⟩ := hprobe (-12) (by omega)
    obtain ⟨after, hafter, has⟩ := hprobe 12 (by omega)
    have hone : z.Showings target [t] := ⟨by simp, by simpa using hread⟩
    obtain ⟨found, hfound, hs, hsub, htwin⟩ := addTwin_spec hz hin2 hl (some before) hone
    obtain ⟨ts, hts, hs', hsub', htwin'⟩ := addTwin_spec hz hin2 hl (some after) hs
    refine ⟨t, ts, ?_, hs', hsub' t (hsub t (by simp)), ?_⟩
    · simp [showing, hsettle, hbefore, hfound, hafter, hts, bind, Except.bind]
    · rintro u hu (he | he)
      · exact hsub' u (htwin before rfl u hu (by rw [he, hbs]; rfl))
      · exact htwin' after rfl u hu (by rw [he, has]; rfl)
  · right
    have hf' : firstSecond ≤ target.second + 3600 := by omega
    have hl' : target.second + 3600 ≤ lastSecond := by omega
    obtain ⟨later, -, hls, hln⟩ := Stamp.exists_of? .wall hf' hl' target.nano_lt
    have hlater : target.add? (Duration.hours 1) = some later :=
      (Stamp.add?_seconds_eq_some hl).mpr ⟨hls, hln⟩
    have hin' : later.Inside 48 := ⟨by omega, by omega⟩
    obtain ⟨hkn, hks⟩ := hkept
    rcases settle_spec hz hin' (Stamp.not_isLeap_of_nano hl hln) with
      ⟨t, hsettle', hread⟩ | ⟨t, hsettle', -, -⟩
    · obtain ⟨hn, hs⟩ := nearby_of_read hz hread
      refine ⟨t, ?_, hmiss, by rw [hn, hln], by omega⟩
      simp [showing, hsettle, hlater, hsettle', orOutOfCalendar, bind, Except.bind, pure,
        Except.pure]
    · refine ⟨kept, ?_, hmiss, hkn, by omega⟩
      simp [showing, hsettle, hlater, hsettle', orOutOfCalendar, bind, Except.bind, pure,
        Except.pure]

/-! ### How far a time lies from what it yields -/

variable {ts found : List Instant}

/-- **What each guess hands on to the next holds of the guess at which guessing ends.**  If it does
not end with the guess that was least off, the time lies no time after what the clock shows there. -/
theorem settleFrom_keeps {P : Instant → Prop}
    (hnext : ∀ {guess shown next}, P guess → z.read guess = .ok shown → target.since shown ≠ 0 →
      guess.add? (target.since shown) = some next → P next) :
    ∀ (rounds : Nat) {guess : Instant} {best : Option (Nat × Instant)} {g : Guess},
      P guess → (∀ b, best = some b → P b.2) →
      z.settleFrom target rounds guess best = .ok g →
      (∃ t shown, g = .exact t ∧ P t ∧ z.read t = .ok shown ∧ target.since shown = 0) ∨
        ∃ t, g = .nearest t ∧ P t
  | 0, _, none, _, _, _, h => by cases h
  | 0, _, some b, _, _, hbest, h => by
      cases h
      exact Or.inr ⟨b.2, rfl, hbest b rfl⟩
  | rounds + 1, guess, best, g, hguess, hbest, h => by
      obtain ⟨shown, hshown, h⟩ := bind_eq_ok.mp h
      extract_lets off at h
      split at h
      · rename_i hzero
        cases h
        exact Or.inl ⟨guess, shown, rfl, hguess, hshown, hzero⟩
      · rename_i hoff
        obtain ⟨next, hadd, h⟩ := bind_eq_ok.mp h
        rw [orOutOfCalendar_eq_ok] at hadd
        refine settleFrom_keeps hnext rounds (hnext hguess hshown hoff hadd) ?_ h
        rintro b ⟨⟩
        rcases closer_eq best off.natAbs guess with hc | hc
        · rw [hc]
          exact hguess
        · exact hbest _ hc

/-- **Guessing fails where the clock cannot be read at a guess, or where the next guess has left the
calendar.** -/
theorem settleFrom_eq_error {P : Instant → Prop} {e : SearchError}
    (hnext : ∀ {guess shown next}, P guess → z.read guess = .ok shown → target.since shown ≠ 0 →
      guess.add? (target.since shown) = some next → P next) :
    ∀ (rounds : Nat) {guess : Instant} {best : Option (Nat × Instant)},
      P guess → (rounds = 0 → best ≠ none) → z.settleFrom target rounds guess best = .error e →
      ∃ t, P t ∧ (z.read t = .error e ∨ e = .outOfCalendar ∧
        ∃ shown, z.read t = .ok shown ∧ t.add? (target.since shown) = none)
  | 0, _, none, _, hbest, _ => absurd rfl (hbest rfl)
  | 0, _, some _, _, _, h => by cases h
  | rounds + 1, guess, best, hguess, _, h => by
      rcases bind_eq_error.mp h with h | ⟨shown, hshown, h⟩
      · exact ⟨guess, hguess, Or.inl h⟩
      extract_lets off at h
      split at h
      · cases h
      · rename_i hoff
        rcases bind_eq_error.mp h with h | ⟨next, hadd, h⟩
        · refine ⟨guess, hguess, Or.inr ?_⟩
          cases hadd : guess.add? off with
          | none =>
            rw [hadd] at h
            cases h
            exact ⟨rfl, shown, hshown, hadd⟩
          | some next =>
            rw [hadd] at h
            cases h
        · rw [orOutOfCalendar_eq_ok] at hadd
          refine settleFrom_eq_error hnext rounds (hnext hguess hshown hoff hadd) ?_ h
          exact fun _ => nofun

/-- Outside leap seconds guessing ends at an instant that shows the time, or with a guess of which
holds what each hands on to the next. -/
theorem settleFrom_induction (hl : ¬ target.IsLeap) {P : Instant → Prop}
    (hnano : ∀ {guess}, P guess → guess.nano = target.nano)
    (hnext : ∀ {guess next}, P guess → next.second = target.second - z.offsetAt guess.second →
      next.nano = target.nano → P next)
    (rounds : Nat) {guess : Instant} {best : Option (Nat × Instant)} {g : Guess}
    (hguess : P guess) (hbest : ∀ b, best = some b → P b.2)
    (h : z.settleFrom target rounds guess best = .ok g) :
    (∃ t, g = .exact t ∧ z.read t = .ok target) ∨ ∃ t, g = .nearest t ∧ P t := by
  have hoff : ∀ {guess shown}, P guess → z.read guess = .ok shown →
      target.since shown = Duration.seconds (target.second - shown.second) := fun hguess hshown =>
    Stamp.since_seconds hl (by rw [(read_eq_ok.mp hshown).2, hnano hguess])
  have hkeep : ∀ {guess shown next}, P guess → z.read guess = .ok shown →
      target.since shown ≠ 0 → guess.add? (target.since shown) = some next → P next := by
    intro guess shown next hguess hshown _ hadd
    have hgn := hnano hguess
    have hs := (read_eq_ok.mp hshown).1
    rw [hoff hguess hshown,
      Stamp.add?_seconds_eq_some (Stamp.not_isLeap_of_nano hl hgn)] at hadd
    exact hnext hguess (by omega) (hadd.2.trans hgn)
  rcases settleFrom_keeps hkeep rounds hguess hbest h with
    ⟨t, shown, rfl, ht, hshown, hzero⟩ | hnearest
  · left
    refine ⟨t, rfl, ?_⟩
    rw [hoff ht hshown, Duration.seconds_eq_zero] at hzero
    have hn := (read_eq_ok.mp hshown).2.trans (hnano ht)
    rw [hshown, Stamp.eq_of_figures (show shown.second = target.second by omega) hn]
  · exact Or.inr hnearest

/-- Guessing that ends at an instant that shows a time has found the one it looked for. -/
theorem read_of_settle (hl : ¬ target.IsLeap) (h : z.settle target = .ok (.exact t)) :
    z.read t = .ok target := by
  rcases settleFrom_induction (P := fun guess => guess.nano = target.nano) hl id
      (fun _ _ hn => hn) maxRounds (by rfl) (by simp) h with ⟨_, ⟨⟩, hread⟩ | ⟨_, ⟨⟩, -⟩
  exact hread

/-- A twin shows the time. -/
theorem read_of_addTwin {probe : Option Instant} (hfound : ∀ t ∈ found, z.read t = .ok target)
    (h : z.addTwin target probe found = .ok ts) : ∀ t ∈ ts, z.read t = .ok target := by
  unfold addTwin at h
  simp only at h
  split at h
  · cases h
    exact hfound
  · obtain ⟨shown, hshown, h⟩ := bind_eq_ok.mp h
    cases h
    split
    · rename_i hnew
      intro u hu
      rcases Stamp.mem_insert.mp hu with rfl | hu
      · rw [hshown, hnew.1]
      · exact hfound u hu
    · exact hfound

/-- **Whatever a time yields** shows it or the time an hour later, or is a guess, of which holds
what each guess hands on to the next. -/
theorem showing_induction (hl : ¬ target.IsLeap) {P : Instant → Prop}
    (hfirst : P (target.readOn .utc)) (hnano : ∀ {guess}, P guess → guess.nano = target.nano)
    (hnext : ∀ {guess next}, P guess → next.second = target.second - z.offsetAt guess.second →
      next.nano = target.nano → P next) (h : z.showing target = .ok ts) (ht : t ∈ ts) :
    z.read t = .ok target ∨
      (∃ later : WallTime, later.second = target.second + 3600 ∧ later.nano = target.nano ∧
        z.read t = .ok later) ∨ P t := by
  obtain ⟨g, hg, h⟩ := bind_eq_ok.mp h
  rcases settleFrom_induction hl hnano hnext maxRounds hfirst (by simp) hg with
    ⟨root, rfl, hroot⟩ | ⟨kept, rfl, hkept⟩
  · obtain ⟨found, hfound, h⟩ := bind_eq_ok.mp h
    have hone : ∀ t ∈ [root], z.read t = .ok target := by simpa using hroot
    exact Or.inl (read_of_addTwin (read_of_addTwin hone hfound) h t ht)
  · obtain ⟨later, hlater, h⟩ := bind_eq_ok.mp h
    rw [orOutOfCalendar_eq_ok] at hlater
    obtain ⟨hls, hln⟩ := (Stamp.add?_seconds_eq_some (n := 3600) hl).mp hlater
    obtain ⟨g', hg', h⟩ := bind_eq_ok.mp h
    cases g' with
    | exact root =>
      cases h
      rw [List.mem_singleton.mp ht]
      exact Or.inr (Or.inl ⟨later, hls, hln, read_of_settle (Stamp.not_isLeap_of_nano hl hln) hg'⟩)
    | nearest _ =>
      cases h
      rw [List.mem_singleton.mp ht]
      exact Or.inr (Or.inr hkept)

/-- **Whatever a time yields lies within a day and an hour of it.** -/
theorem showing_nearby (hz : z.WithinDay) (hl : ¬ target.IsLeap) (h : z.showing target = .ok ts)
    (ht : t ∈ ts) : t.nano = target.nano ∧ (t.second - target.second).natAbs ≤ 90000 := by
  have hfirst : Nearby target (target.readOn .utc) := ⟨rfl, by rw [Stamp.second_readOn]; omega⟩
  have hnext : ∀ {guess next : Instant}, Nearby target guess →
      next.second = target.second - z.offsetAt guess.second → next.nano = target.nano →
      Nearby target next := by
    intro guess next _ hs hn
    have := hz guess.second
    exact ⟨hn, by omega⟩
  rcases showing_induction hl hfirst And.left hnext h ht with
    hread | ⟨later, hls, hln, hread⟩ | ⟨hn, hs⟩
  · obtain ⟨hn, hs⟩ := nearby_of_read hz hread
    exact ⟨hn, by omega⟩
  · obtain ⟨hn, hs⟩ := nearby_of_read hz hread
    exact ⟨hn.trans hln, by omega⟩
  · exact ⟨hn, by omega⟩

end Zone

end Crontab
