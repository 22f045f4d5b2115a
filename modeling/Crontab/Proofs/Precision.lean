import Crontab.Proofs.Soundness
import Mathlib.Data.List.Find

/-! # How precisely a search reads its origin

A search sets out from the minute that the clock shows, so the seconds of its origin should not
matter.  They come in again where instants are compared with the origin.  On clocks that keep to
whole minutes (`Zone.KeepsMinutes`) all instants that stand for a minute are starts of minutes
(`Zone.KeepsMinutes.onMinute_of_showing`), and of those the instants of one minute have **the same
ones ahead** (`Direction.past_congr`), but for one: looking backward, the start of the minute
itself lies behind all the rest of it.

So a search forward finds the same from all instants of a minute, and a search backward too unless
one of them is the start of the minute and **the search from the other finds that start**
(`Schedule.occurrence_congr`, `Schedule.previous_congr_iff`).
-/

namespace Crontab

open Outcome

namespace Stamp

variable {clock : Clock} {a b t : Stamp clock}

theorem startOfMinute_eq_iff : a.startOfMinute = b.startOfMinute ↔
    a.second / 60 = b.second / 60 := by
  constructor
  · intro h
    have hs : a.second - a.second % 60 = b.second - b.second % 60 := congrArg Stamp.second h
    omega
  · intro h
    refine eq_of_figures ?_ rfl
    change a.second - a.second % 60 = b.second - b.second % 60
    omega

theorem onMinute_startOfMinute : t.startOfMinute.OnMinute := by
  rw [onMinute_iff]
  change (t.second - t.second % 60) % 60 = 0 ∧ 0 = 0
  omega

end Stamp

/-- A test that one element more passes finds what the other finds, or that element. -/
theorem find?_eq_or {α : Type} {p q : α → Bool} {x : α} {l : List α}
    (h : ∀ t ∈ l, q t = true ↔ p t = true ∨ t = x) :
    l.find? q = l.find? p ∨ l.find? q = some x := by
  induction l with
  | nil => exact Or.inl rfl
  | cons t l ih =>
    obtain ⟨ht, hl⟩ := List.forall_mem_cons.mp h
    by_cases hp : p t = true
    · simp [hp, ht.mpr (Or.inl hp)]
    · by_cases hx : t = x
      · right
        rw [List.find?_cons_of_pos (ht.mpr (Or.inr hx)), hx]
      · have hq : ¬ q t = true := fun hq => (ht.mp hq).elim hp hx
        rw [List.find?_cons_of_neg hp, List.find?_cons_of_neg hq]
        exact ih hl

namespace Direction

variable {d : Direction} {a b t : Instant} {ts : List Instant}

/-- **Of the starts of minutes, the instants of one minute have the same ones ahead of them**,
looking forward, and looking backward if both or neither is the start of that minute. -/
theorem past_congr (h : a.startOfMinute = b.startOfMinute)
    (hstart : d = .backward → (a.OnMinute ↔ b.OnMinute)) (ht : t.OnMinute) :
    d.Past a t ↔ d.Past b t := by
  have hab := Stamp.startOfMinute_eq_iff.mp h
  simp only [Stamp.onMinute_iff] at hstart ht
  cases d <;> simp only [Past, Stamp.lt_def, reduceCtorEq, false_implies, forall_const] at * <;>
    omega

/-- Looking backward, an instant has what the start of its minute has ahead, and that start. -/
theorem lt_iff_lt_or_eq_start (h : a.startOfMinute = b.startOfMinute) (ha : a.OnMinute)
    (hb : ¬ b.OnMinute) (ht : t.OnMinute) : t < b ↔ t < a ∨ t = a := by
  have hab := Stamp.startOfMinute_eq_iff.mp h
  have heq : t = a ↔ t.second = a.second ∧ t.nano = a.nano :=
    ⟨fun he => he ▸ ⟨rfl, rfl⟩, fun he => Stamp.eq_of_figures he.1 he.2⟩
  rw [heq, Stamp.lt_def, Stamp.lt_def]
  rw [Stamp.onMinute_iff] at ha hb ht
  omega

/-- What an instant does not have ahead, looking backward, comes after the start of its minute. -/
theorem not_lt_iff_start_lt (h : a.startOfMinute = b.startOfMinute) (ha : a.OnMinute)
    (hb : ¬ b.OnMinute) (ht : t.OnMinute) : ¬ t < b ↔ a < t := by
  have hab := Stamp.startOfMinute_eq_iff.mp h
  rw [Stamp.lt_def, Stamp.lt_def]
  rw [Stamp.onMinute_iff] at ha hb ht
  omega

/-- Two searches pick the same of the instants that they both have ahead. -/
theorem pick_congr (h : ∀ t ∈ ts, d.Past a t ↔ d.Past b t) : d.pick a ts = d.pick b ts := by
  cases d with
  | forward =>
    exact List.find?_congr fun t ht => decide_eq_decide.mpr (h t ht)
  | backward =>
    exact List.find?_congr fun t ht => decide_eq_decide.mpr (h t (List.mem_reverse.mp ht))

/-- Of an instant and one past it, or the same, a search meets the first. -/
theorem nearer_eq_left (h : b = a ∨ d.Past a b) : d.nearer a b = a := by
  rcases nearer_eq d a b with he | he
  · exact he
  · rcases h with rfl | hp
    · exact he
    · have hspec := (nearer_spec d a b).1
      rw [he] at hspec
      rcases hspec with hba | hba
      · exact he.trans hba
      · exact absurd (past_trans hp hba) (past_irrefl a)

/-- The same from the other side. -/
theorem nearer_eq_right (h : a = b ∨ d.Past b a) : d.nearer a b = b := by
  rcases nearer_eq d a b with he | he
  · rcases h with rfl | hp
    · exact he
    · have hspec := (nearer_spec d a b).2
      rw [he] at hspec
      rcases hspec with hab | hab
      · exact he.trans hab
      · exact absurd (past_trans hp hab) (past_irrefl b)
  · exact he

end Direction

namespace Zone

variable {z : Zone} {d : Direction} {a b t : Instant} {w : WallTime} {ts : List Instant}

/-- **Clocks that keep to whole minutes**: they are ahead by whole minutes, and are turned at the
start of a minute.  How far and how often does not matter. -/
structure KeepsMinutes (z : Zone) : Prop where
  offset_whole : ∀ second, z.offsetAt second % 60 = 0
  turn_whole : ∀ turn, z.Changes turn → turn % 60 = 0

theorem WholeMinutes.keepsMinutes (hz : z.WholeMinutes) : z.KeepsMinutes :=
  ⟨hz.offset_whole, hz.turn_whole⟩

/-- The offset does not change within a minute. -/
theorem KeepsMinutes.offsetAt_congr (hz : z.KeepsMinutes)
    (h : a.startOfMinute = b.startOfMinute) : z.offsetAt a.second = z.offsetAt b.second := by
  have key : ∀ {x y : Int}, x ≤ y → x / 60 = y / 60 → z.offsetAt y = z.offsetAt x := by
    intro x y hle hxy
    refine offsetAt_eq_of_steady hle fun turn hlt hle' hc => ?_
    have := hz.turn_whole turn hc
    omega
  have hab := Stamp.startOfMinute_eq_iff.mp h
  rcases Int.le_total a.second b.second with hle | hle
  · exact (key hle hab).symm
  · exact key hle hab.symm

/-- From all instants of a minute the clock is read to the minute, if from one. -/
theorem KeepsMinutes.read_congr (hz : z.KeepsMinutes) (h : a.startOfMinute = b.startOfMinute)
    (hw : z.read a = .ok w) : ∃ v, z.read b = .ok v ∧ w.startOfMinute = v.startOfMinute := by
  have hoff := hz.offsetAt_congr h
  have hwhole := hz.offset_whole b.second
  have hab := Stamp.startOfMinute_eq_iff.mp h
  obtain ⟨hs, -⟩ := read_eq_ok.mp hw
  have hf := w.first_le
  have hl := w.le_last
  -- the calendar begins and ends with whole minutes
  simp only [firstSecond, lastSecond] at hf hl
  obtain ⟨v, -, hvs, hvn⟩ := Stamp.exists_of? .wall
    (show firstSecond ≤ b.second + z.offsetAt b.second by unfold firstSecond; omega)
    (by unfold lastSecond; omega) b.nano_lt
  exact ⟨v, read_eq_ok.mpr ⟨hvs, hvn⟩, Stamp.startOfMinute_eq_iff.mpr (by omega)⟩

theorem error_of_read {e : SearchError} (h : z.read t = .error e) : e = .noReading := by
  rw [read] at h
  split at h
  · cases h
  · cases h
    rfl

/-- **What is computed from the minute that the clock shows** is the same for all instants of
one. -/
theorem KeepsMinutes.bind_read_congr {β : Type} (hz : z.KeepsMinutes)
    (h : a.startOfMinute = b.startOfMinute) {f g : WallTime → Except SearchError β}
    (hfg : ∀ w v, w.startOfMinute = v.startOfMinute → f w = g v) :
    (z.read a >>= f) = z.read b >>= g := by
  cases ha : z.read a with
  | ok w =>
    obtain ⟨v, hv, hwv⟩ := hz.read_congr h ha
    rw [hv]
    exact hfg w v hwv
  | error e =>
    cases hb : z.read b with
    | ok v =>
      obtain ⟨w, hw, -⟩ := hz.read_congr h.symm hb
      rw [ha] at hw
      cases hw
    | error e' =>
      rw [error_of_read ha, error_of_read hb]
      rfl

/-- **What stands for the start of a minute is the start of a minute.** -/
theorem KeepsMinutes.onMinute_of_showing (hz : z.KeepsMinutes) (hw : w.OnMinute)
    (h : z.showing w = .ok ts) (ht : t ∈ ts) : t.OnMinute := by
  obtain ⟨hws, hwn⟩ := Stamp.onMinute_iff.mp hw
  have hread : ∀ {v : WallTime}, v.second % 60 = 0 → v.nano = 0 → z.read t = .ok v →
      t.OnMinute := by
    intro v hvs hvn hv
    obtain ⟨hs, hn⟩ := read_eq_ok.mp hv
    have hwhole := hz.offset_whole t.second
    exact Stamp.onMinute_iff.mpr ⟨by omega, hn.symm.trans hvn⟩
  have hnext : ∀ {guess next : Instant}, guess.OnMinute →
      next.second = w.second - z.offsetAt guess.second → next.nano = w.nano → next.OnMinute := by
    intro guess next _ hs hn
    have hwhole := hz.offset_whole guess.second
    exact Stamp.onMinute_iff.mpr ⟨by omega, hn.trans hwn⟩
  rcases showing_induction (P := Stamp.OnMinute) (Stamp.not_isLeap_of_nano_eq_zero hwn)
    (Stamp.onMinute_iff.mpr ⟨hws, hwn⟩)
    (fun hg => (Stamp.onMinute_iff.mp hg).2.trans hwn.symm) hnext h ht with
    hv | ⟨later, hls, hln, hv⟩ | hkept
  · exact hread hws hwn hv
  · exact hread (by omega) (hln.trans hwn) hv
  · exact hkept

theorem KeepsMinutes.onMinute_of_resolves {m : CivilMinute} {x : Instant} (hz : z.KeepsMinutes)
    (h : z.Resolves d a m (some x)) : x.OnMinute := by
  obtain ⟨w, ts, hw, hts, hpick⟩ := h
  obtain ⟨hws, hwn, -⟩ := CivilMinute.figures_of_toWall? hw
  exact hz.onMinute_of_showing (Stamp.onMinute_iff.mpr ⟨by omega, hwn⟩) hts
    (Direction.pick_eq_some hpick).1

/-- Two searches from one minute set out once more alike. -/
theorem KeepsMinutes.otherPass?_congr (hz : z.KeepsMinutes) (d : Direction)
    (h : a.startOfMinute = b.startOfMinute) (hw : w.OnMinute) :
    z.otherPass? d a w = z.otherPass? d b w := by
  refine bind_congr_ok fun ts hts => ?_
  match ts, hts with
  | [], _ => rfl
  | [_], _ => rfl
  | _ :: _ :: _ :: _, _ => rfl
  | [low, high], hts =>
    have hhigh : high.OnMinute := hz.onMinute_of_showing hw hts (by simp)
    have hiff : a < high ↔ b < high := Direction.past_congr (d := .forward) h nofun hhigh
    simp only [hiff]

end Zone

namespace Schedule

variable {s : Schedule} {z : Zone} {d : Direction} {a b x : Instant} {n : Nat} {start : WallTime}

/-- **The attempts of two searches** come to the same end if they pick the same of what stands for
each minute, or else those of the first may come to an instant of its own. -/
theorem firstPast_congr_or (hz : z.KeepsMinutes) {P : Instant → Prop}
    (hpick : ∀ {ts : List Instant}, (∀ t ∈ ts, t.OnMinute) →
      d.pick b ts = d.pick a ts ∨ ∃ x, P x ∧ d.pick b ts = some x) (n : Nat) (start : WallTime) :
    s.firstPast z d b n start = s.firstPast z d a n start ∨
      ∃ x, P x ∧ s.firstPast z d b n start = .ok x := by
  induction n generalizing start with
  | zero => exact Or.inl rfl
  | succ n ih =>
    refine bind_congr_or fun m _ => bind_congr_or fun w hw => bind_congr_or fun ts hts => ?_
    obtain ⟨hws, hwn, -⟩ := CivilMinute.figures_of_toWall? (orOutOfCalendar_eq_ok.mp hw)
    have hminutes : ∀ t ∈ ts, t.OnMinute := fun t ht =>
      hz.onMinute_of_showing (Stamp.onMinute_iff.mpr ⟨by omega, hwn⟩) hts ht
    rcases hpick hminutes with heq | ⟨x, hx, hown⟩
    · rw [heq]
      cases d.pick a ts with
      | some t => exact Or.inl rfl
      | none => exact bind_congr_or fun next _ => ih next
    · rw [hown]
      exact Or.inr ⟨x, hx, rfl⟩

/-- **Searches from one minute find the same** if they have the same starts of minutes ahead. -/
theorem occurrence_congr (hz : z.KeepsMinutes) (h : a.startOfMinute = b.startOfMinute)
    (hpast : ∀ t : Instant, t.OnMinute → (d.Past a t ↔ d.Past b t)) :
    s.occurrence z d a = s.occurrence z d b := by
  have hsame : ∀ start, s.firstPast z d a maxAttempts start =
      s.firstPast z d b maxAttempts start := by
    intro start
    rcases firstPast_congr_or (s := s) (P := fun _ => False) hz (fun hts =>
      Or.inl (Direction.pick_congr fun t ht => (hpast t (hts t ht)).symm)) maxAttempts start with
      heq | ⟨_, ⟨⟩, _⟩
    exact heq.symm
  unfold occurrence
  refine hz.bind_read_congr h fun w v hwv => ?_
  simp only [hwv, hsame, hz.otherPass?_congr d h Stamp.onMinute_startOfMinute]

/-! ### The start of the minute itself -/

/-- The attempts from within a minute come to what those from its start come to, or to that
start. -/
theorem firstPast_congr_or_start (hz : z.KeepsMinutes) (h : a.startOfMinute = b.startOfMinute)
    (ha : a.OnMinute) (hb : ¬ b.OnMinute) (n : Nat) (start : WallTime) :
    s.firstPast z .backward b n start = s.firstPast z .backward a n start ∨
      s.firstPast z .backward b n start = .ok a := by
  have hpick : ∀ {ts : List Instant}, (∀ t ∈ ts, t.OnMinute) →
      Direction.backward.pick b ts = Direction.backward.pick a ts ∨
        ∃ x, x = a ∧ Direction.backward.pick b ts = some x := by
    intro ts hts
    have hiff : ∀ t ∈ ts.reverse, decide (t < b) = true ↔ decide (t < a) = true ∨ t = a := by
      intro t ht
      simpa using Direction.lt_iff_lt_or_eq_start h ha hb (hts t (List.mem_reverse.mp ht))
    rcases find?_eq_or hiff with heq | hown
    · exact Or.inl heq
    · exact Or.inr ⟨a, rfl, hown⟩
  rcases firstPast_congr_or (s := s) (P := (· = a)) hz hpick n start with heq | ⟨_, rfl, hx⟩
  · exact Or.inl heq
  · exact Or.inr hx

/-- What a search backward from within a minute comes to is the start of that minute or lies
before it. -/
theorem eq_start_or_lt (hv : s.Valid) (hz : z.KeepsMinutes) (h : a.startOfMinute = b.startOfMinute)
    (ha : a.OnMinute) (hb : ¬ b.OnMinute) (hx : s.firstPast z .backward b n start = .ok x) :
    x = a ∨ x < a := by
  obtain ⟨m, hm⟩ := finds_of_firstPast hv hx
  have hlt : x < b := hm.resolves.past
  have honMinute := hz.onMinute_of_resolves hm.resolves
  exact ((Direction.lt_iff_lt_or_eq_start h ha hb honMinute).mp hlt).symm

/-- A search from within a minute succeeds if one from its start does. -/
theorem exists_previous_of_start (hz : z.KeepsMinutes) (h : a.startOfMinute = b.startOfMinute)
    (ha : a.OnMinute) (hb : ¬ b.OnMinute) {r : Instant} (hr : s.previous z a = .ok r) :
    ∃ x, s.previous z b = .ok x := by
  have hfirst : ∀ {start x}, s.firstPast z .backward a maxAttempts start = .ok x →
      ∃ y, s.firstPast z .backward b maxAttempts start = .ok y := by
    intro start x hx
    rcases firstPast_congr_or_start (s := s) hz h ha hb maxAttempts start with heq | hown
    · exact ⟨x, heq.trans hx⟩
    · exact ⟨a, hown⟩
  obtain ⟨w, start, found, hw, hstart, hfound, hend⟩ := occurrence_eq_ok_iff.mp hr
  obtain ⟨v, hread, hwv⟩ := hz.read_congr h hw
  obtain ⟨x, hx⟩ := hfirst hfound
  rw [hwv] at hstart hend
  rw [hz.otherPass?_congr .backward h Stamp.onMinute_startOfMinute] at hend
  rcases hend with ⟨hother, -⟩ | ⟨restart, again, hother, hagain, -⟩
  · exact ⟨x, occurrence_eq_ok_iff.mpr ⟨v, start, x, hread, hstart, hx, Or.inl ⟨hother, rfl⟩⟩⟩
  · obtain ⟨y, hy⟩ := hfirst hagain
    exact ⟨_, occurrence_eq_ok_iff.mpr ⟨v, start, x, hread, hstart, hx,
      Or.inr ⟨restart, y, hother, hy, rfl⟩⟩⟩

/-- What a search from within a minute finds, and is not the start of the minute, a search from
that start finds. -/
theorem previous_of_ne_start (hv : s.Valid) (hz : z.KeepsMinutes)
    (h : a.startOfMinute = b.startOfMinute) (ha : a.OnMinute) (hb : ¬ b.OnMinute) {r : Instant}
    (hr : s.previous z b = .ok r) (hne : r ≠ a) : s.previous z a = .ok r := by
  have hfirst : ∀ {start x}, s.firstPast z .backward b maxAttempts start = .ok x → x ≠ a →
      s.firstPast z .backward a maxAttempts start = .ok x := by
    intro start x hx hxa
    rcases firstPast_congr_or_start (s := s) hz h ha hb maxAttempts start with heq | hown
    · exact heq.symm.trans hx
    · exact absurd (Except.ok.inj (hx.symm.trans hown)) hxa
  obtain ⟨v, start, found, hread, hstart, hfound, hend⟩ := occurrence_eq_ok_iff.mp hr
  obtain ⟨w, hw, hvw⟩ := hz.read_congr h.symm hread
  rw [hvw] at hstart hend
  rw [hz.otherPass?_congr .backward h.symm Stamp.onMinute_startOfMinute] at hend
  refine occurrence_eq_ok_iff.mpr ⟨w, start, found, hw, hstart, ?_⟩
  rcases hend with ⟨hother, rfl⟩ | ⟨restart, again, hother, hagain, rfl⟩
  · exact ⟨hfirst hfound hne, Or.inl ⟨hother, rfl⟩⟩
  · -- of the two that the search comes to, neither is the start of the minute
    have hfounda : found ≠ a := by
      rintro rfl
      exact hne (Direction.nearer_eq_left (eq_start_or_lt hv hz h ha hb hagain))
    have hagaina : again ≠ a := by
      rintro rfl
      exact hne (Direction.nearer_eq_right (eq_start_or_lt hv hz h ha hb hfound))
    exact ⟨hfirst hfound hfounda, Or.inr ⟨restart, again, hother, hfirst hagain hagaina, rfl⟩⟩

/-- **A search backward from within a minute finds what it finds from its start**, unless it finds
that start. -/
theorem previous_congr_iff (hv : s.Valid) (hz : z.KeepsMinutes)
    (h : a.startOfMinute = b.startOfMinute) (ha : a.OnMinute) (hb : ¬ b.OnMinute) :
    (∀ r, s.previous z a = .ok r ↔ s.previous z b = .ok r) ↔ s.previous z b ≠ .ok a := by
  constructor
  · intro hsame hown
    obtain ⟨m, -, hres⟩ := exists_resolves_of_occurrence hv ((hsame a).mpr hown)
    exact Stamp.lt_irrefl a hres.past
  · intro hown r
    constructor
    · intro hr
      obtain ⟨x, hx⟩ := exists_previous_of_start hz h ha hb hr
      have hxa : x ≠ a := fun he => hown (he ▸ hx)
      rw [← Except.ok.inj ((previous_of_ne_start hv hz h ha hb hx hxa).symm.trans hr)]
      exact hx
    · intro hr
      exact previous_of_ne_start hv hz h ha hb hr fun he => hown (he ▸ hr)

end Schedule

end Crontab
