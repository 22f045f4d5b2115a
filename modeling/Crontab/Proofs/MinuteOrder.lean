import Crontab.Calendar.DayCount
import Crontab.CivilMinute
import Crontab.Direction
import Crontab.Field.Set.Members

/-! # The order of the minutes

Minutes of the calendar are compared field by field, the coarsest first.  `Date.rank` and
`CivilMinute.rank` put the fields into one number, digit after digit, so that comparing
ranks is comparing fields, and **ranks and numbers order the minutes alike**
(`CivilMinute.number_lt_iff`).  Searches go through the minutes in either direction:
`Direction.Reaches` and `Direction.Passes` are the order as a search sees it.

Points on a clock and minutes of the calendar correspond: every point lies in a minute
in use (`Stamp.civil_inUse`), whose number is the minutes since 1970 (`Stamp.number_civil`),
and every minute in use starts at a wall time that lies in it
(`CivilMinute.exists_toWall?`).
-/

namespace Crontab

namespace Direction

/-- A search that sets out from `a` comes to `b`, or is there already. -/
def Reaches : Direction → (a b : Int) → Prop
  | forward, a, b => a ≤ b
  | backward, a, b => b ≤ a

/-- A search that sets out from `a` comes to `b` later on. -/
def Passes : Direction → (a b : Int) → Prop
  | forward, a, b => a < b
  | backward, a, b => b < a

variable {d : Direction} {a b c : Int}

theorem reaches_refl (d : Direction) (a : Int) : d.Reaches a a := by
  cases d <;> exact Int.le_refl a

theorem reaches_trans (h : d.Reaches a b) (h' : d.Reaches b c) : d.Reaches a c := by
  cases d
  · exact Int.le_trans h h'
  · exact Int.le_trans h' h

theorem not_reaches : ¬ d.Reaches a b ↔ d.Passes b a := by
  cases d <;> exact Int.not_le

/-- Nothing lies between a number and the next. -/
theorem reaches_add_sign : d.Reaches (a + d.sign) b ↔ d.Passes a b := by
  cases d <;> simp only [Reaches, Passes, sign] <;> omega

theorem reaches_iff : d.Reaches a b ↔ a = b ∨ d.Passes a b := by
  cases d <;> simp only [Reaches, Passes] <;> omega

variable {set : FieldSet} {target : Int} {n m : Nat}

theorem find?_eq_some_iff : d.find? set target = some n ↔
    (n ∈ set ∧ d.Reaches target n) ∧ ∀ m : Nat, m ∈ set ∧ d.Reaches target m → d.Reaches n m := by
  cases d
  · simp only [find?, Reaches, Int.ofNat_le]
    exact FieldSet.next?_eq_some_iff
  · simp only [find?, Reaches, Int.ofNat_le]
    exact FieldSet.prev?_eq_some_iff

theorem find?_eq_none_iff :
    d.find? set target = none ↔ ∀ m : Nat, ¬ (m ∈ set ∧ d.Reaches target m) := by
  cases d
  · exact FieldSet.next?_eq_none_iff
  · exact FieldSet.prev?_eq_none_iff

/-- A field that allows something starts over at the member that a search meets first. -/
theorem start_spec (h : n ∈ set) : d.start set ∈ set ∧ ∀ m ∈ set, d.Reaches (d.start set) m := by
  cases d
  · cases hf : set.next? 0 with
    | none => exact absurd ⟨h, by omega⟩ (FieldSet.next?_eq_none_iff.mp hf n)
    | some k =>
      obtain ⟨⟨hk, -⟩, hleast⟩ := FieldSet.next?_eq_some_iff.mp hf
      rw [show start forward set = k by simp [start, FieldSet.first?, hf]]
      exact ⟨hk, fun m hm => Int.ofNat_le.mpr (hleast m ⟨hm, by omega⟩)⟩
  · have hlt : ∀ m ∈ set, (m : Int) ≤ 63 := fun m hm => by
      have := FieldSet.lt_of_mem hm
      omega
    cases hf : set.prev? 63 with
    | none => exact absurd ⟨h, hlt n h⟩ (FieldSet.prev?_eq_none_iff.mp hf n)
    | some k =>
      obtain ⟨⟨hk, -⟩, hmost⟩ := FieldSet.prev?_eq_some_iff.mp hf
      rw [show start backward set = k by simp [start, FieldSet.last?, hf]]
      exact ⟨hk, fun m hm => Int.ofNat_le.mpr (hmost m ⟨hm, hlt m hm⟩)⟩

theorem start_mem (h : ∃ n, n ∈ set) : d.start set ∈ set := by
  obtain ⟨n, hn⟩ := h
  exact (start_spec hn).1

theorem reaches_start (h : n ∈ set) : d.Reaches (d.start set) n := (start_spec h).2 n h

end Direction

/-! ### Dates -/

namespace Date

/-- Year, month and day as the digits of one number. -/
def rank (d : Date) : Int := (d.year * 12 + d.month) * 32 + d.day

variable {a b d : Date}

theorem Exists.bounds (h : d.Exists) : d.month < 12 ∧ 1 ≤ d.day ∧ d.day ≤ 31 :=
  ⟨h.1, h.2.1, Nat.le_trans h.2.2 (monthLength_le _ _)⟩

theorem rank_inj (ha : a.Exists) (hb : b.Exists) (h : a.rank = b.rank) : a = b := by
  have := ha.bounds
  have := hb.bounds
  obtain ⟨ay, am, ad⟩ := a
  obtain ⟨bly, bm, bd⟩ := b
  simp only [rank, mk.injEq] at *
  omega

theorem dayNumber_lt_iff (ha : a.Exists) (hb : b.Exists) :
    a.dayNumber < b.dayNumber ↔ a.rank < b.rank := by
  have key : ∀ {a b : Date}, a.Exists → b.Exists → a.rank < b.rank →
      a.dayNumber < b.dayNumber := by
    intro a b ha hb h
    apply dayNumber_lt ha hb
    have := ha.bounds
    have := hb.bounds
    unfold rank at h
    omega
  refine ⟨fun h => ?_, key ha hb⟩
  apply Int.lt_of_not_ge
  intro hle
  rcases Int.lt_or_eq_of_le hle with hlt | heq
  · have := key hb ha hlt
    omega
  · rw [rank_inj hb ha heq] at h
    omega

/-- The days in use are those from the first to the last. -/
theorem inUse_iff_dayNumber (h : d.Exists) :
    d.InUse ↔ firstSecond ≤ d.dayNumber * 86400 ∧ d.dayNumber * 86400 ≤ lastSecond := by
  have hfirst : Exists ⟨firstYear, 0, 1⟩ := by decide
  have hlast : Exists ⟨lastYear, 11, 31⟩ := by decide
  have hf : dayNumber ⟨firstYear, 0, 1⟩ * 86400 = firstSecond := by decide
  have hl : (dayNumber ⟨lastYear, 11, 31⟩ + 1) * 86400 = lastSecond + 1 := by decide
  have h1 := dayNumber_lt_iff h hfirst
  have h2 := dayNumber_lt_iff hlast h
  have := h.bounds
  simp only [rank, firstYear, lastYear] at h1 h2 hf hl
  simp only [InUse, firstYear, lastYear]
  constructor
  · rintro ⟨⟨hy, hy'⟩, -⟩
    omega
  · intro hr
    exact ⟨by omega, h⟩

end Date

/-! ### Minutes -/

namespace CivilMinute

/-- The minute names a day of the calendar, an hour of the day and a minute of the hour. -/
def Exists (c : CivilMinute) : Prop := c.toDate.Exists ∧ c.hour < 24 ∧ c.minute < 60

/-- Year, month, day, hour and minute as the digits of one number. -/
def rank (c : CivilMinute) : Int := (c.toDate.rank * 24 + c.hour) * 60 + c.minute

variable {a b c m : CivilMinute} {d : Direction}

theorem InUse.exists (h : c.InUse) : c.Exists := ⟨h.1.2, h.2⟩

theorem Exists.bounds (h : c.Exists) :
    c.month < 12 ∧ (1 ≤ c.day ∧ c.day ≤ 31) ∧ c.hour < 24 ∧ c.minute < 60 :=
  ⟨h.1.1, h.1.bounds.2, h.2⟩

theorem rank_inj (ha : a.Exists) (hb : b.Exists) (h : a.rank = b.rank) : a = b := by
  have := ha.bounds
  have := hb.bounds
  obtain ⟨⟨ay, am, ad⟩, ah, amin⟩ := a
  obtain ⟨⟨bly, bm, bd⟩, bh, bmin⟩ := b
  simp only [rank, Date.rank, mk.injEq, Date.mk.injEq] at *
  omega

/-- **Ranks and numbers order the minutes alike.** -/
theorem number_lt_iff (ha : a.Exists) (hb : b.Exists) : a.number < b.number ↔ a.rank < b.rank := by
  have hlt := Date.dayNumber_lt_iff ha.1 hb.1
  have hgt := Date.dayNumber_lt_iff hb.1 ha.1
  obtain ⟨-, _, _⟩ := ha
  obtain ⟨-, _, _⟩ := hb
  unfold number rank
  omega

theorem reaches_number_iff (ha : a.Exists) (hb : b.Exists) :
    d.Reaches a.number b.number ↔ d.Reaches a.rank b.rank := by
  have hab := number_lt_iff ha hb
  have hba := number_lt_iff hb ha
  cases d <;> simp only [Direction.Reaches] <;> omega

theorem passes_number_iff (ha : a.Exists) (hb : b.Exists) :
    d.Passes a.number b.number ↔ d.Passes a.rank b.rank := by
  cases d
  · exact number_lt_iff ha hb
  · exact number_lt_iff hb ha

/-- Between two minutes in use all minutes are in use. -/
theorem inUse_of_reaches (ha : a.InUse) (hb : b.InUse) (hc : c.Exists)
    (hac : d.Reaches a.rank c.rank) (hcb : d.Reaches c.rank b.rank) : c.InUse := by
  have := ha.exists.bounds
  have := hb.exists.bounds
  have := hc.bounds
  obtain ⟨⟨_, -⟩, -⟩ := ha
  obtain ⟨⟨_, -⟩, -⟩ := hb
  refine ⟨⟨?_, hc.1⟩, hc.2⟩
  cases d <;> simp only [Direction.Reaches, rank, Date.rank] at hac hcb <;> omega

end CivilMinute

/-! ### Minutes and points on a clock -/

namespace Stamp

variable {clock : Clock} (t : Stamp clock)

theorem civil_inUse : t.civil.InUse := by
  have hday := Date.dayNumber_ofDayNumber (t.second / 86400)
  have := t.first_le
  have := t.le_last
  simp only [firstSecond, lastSecond] at *
  refine ⟨(Date.inUse_iff_dayNumber (Date.exists_ofDayNumber _)).mpr ?_, ?_, ?_⟩
  · simp only [hday, firstSecond, lastSecond]
    omega
  · simp only [civil, secondOfDay]
    omega
  · simp only [civil, secondOfDay]
    omega

theorem number_civil : t.civil.number = t.second / 60 := by
  simp only [CivilMinute.number, civil, Date.dayNumber_ofDayNumber, secondOfDay]
  omega

end Stamp

namespace CivilMinute

variable {c : CivilMinute}

theorem number_inj {a b : CivilMinute} (ha : a.Exists) (hb : b.Exists)
    (h : a.number = b.number) : a = b := by
  have hab := number_lt_iff ha hb
  have hba := number_lt_iff hb ha
  exact rank_inj ha hb (by omega)

/-- **A minute in use starts at a wall time that lies in it.** -/
theorem exists_toWall? (h : c.InUse) : ∃ w : WallTime,
    c.toWall? = some w ∧ w.second = c.number * 60 ∧ w.nano = 0 ∧ w.civil = c := by
  have hday := (Date.inUse_iff_dayNumber h.1.2).mp h.1
  have := h.exists.bounds
  have hfirst : firstSecond ≤ c.number * 60 := by
    unfold number
    omega
  have hlast : c.number * 60 ≤ lastSecond := by
    simp only [lastSecond] at *
    unfold number
    omega
  refine ⟨⟨c.number * 60, 0, hfirst, hlast, by decide⟩, ?_, rfl, rfl, ?_⟩
  · rw [toWall?, if_pos h, Stamp.of?, dif_pos ⟨⟨hfirst, hlast⟩, by decide⟩]
  · apply number_inj (Stamp.civil_inUse _).exists h.exists
    rw [Stamp.number_civil]
    exact Int.mul_ediv_cancel _ (by decide)

/-- The figures of the wall time at which a minute starts. -/
theorem figures_of_toWall? {w : WallTime} (hw : c.toWall? = some w) :
    w.second = c.number * 60 ∧ w.nano = 0 ∧ w.civil = c := by
  have huse : c.InUse := by
    rw [toWall?] at hw
    split at hw
    · assumption
    · cases hw
  obtain ⟨w', hw', hfigures⟩ := exists_toWall? huse
  rw [Option.some.inj (hw.symm.trans hw')]
  exact hfigures

end CivilMinute

end Crontab
