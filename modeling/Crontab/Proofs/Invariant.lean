import Crontab.Proofs.Correction
import Crontab.Proofs.Parsing
import Mathlib.Data.List.Sort

/-! # What the sets of a schedule keep

A set is changed several times on its way from the text of a field to a schedule: its terms are
put in one by one, months are moved down by one, and Sunday is folded.  Each step carries over that
the set has bounds of its own, holds something, and holds nothing outside them
(`FieldSet.Between`), so all five sets of a schedule do (`Schedule.Bounded`).

A field that is a bare star allows all there is between its bounds.  Hence the day and the weekday
field can be looked at alike: **a schedule that has both decide admits what lies in all five sets,
and one that has either suffice admits what lies in the time, the month and one of the two**
(`Schedule.admits_iff_mem`).
-/

namespace Crontab

open Outcome

namespace FieldSet

variable {s t : FieldSet} {f : Field} {a b m n amount : Nat}

/-- **A set between two bounds**: they are its own, it holds nothing outside them, and it holds
something. -/
structure Between (s : FieldSet) (least greatest : Nat) : Prop where
  least_eq : s.least = least
  greatest_eq : s.greatest = greatest
  bounds : ∀ n ∈ s, least ≤ n ∧ n ≤ greatest
  nonempty : ∃ n, n ∈ s

theorem Fresh.between (h : s.Fresh f) : s.Between f.least f.greatest :=
  ⟨h.least_eq, h.greatest_eq, h.bounds, h.nonempty⟩

theorem Between.shiftDown (h : s.Between a b) (ha : amount ≤ a) :
    (s.shiftDown amount).Between (a - amount) (b - amount) where
  least_eq := congrArg (· - amount) h.least_eq
  greatest_eq := congrArg (· - amount) h.greatest_eq
  bounds n hn := by
    have := h.bounds _ (mem_shiftDown.mp hn)
    omega
  nonempty := by
    obtain ⟨n, hn⟩ := h.nonempty
    have := h.bounds n hn
    refine ⟨n - amount, mem_shiftDown.mpr ?_⟩
    rwa [Nat.sub_add_cancel (by omega)]

theorem bounds_of_foldSunday (h : Schedule.foldSunday s = .ok t) :
    t.least = s.least ∧ t.greatest = 6 := by
  unfold Schedule.foldSunday at h
  split at h
  · obtain ⟨erased, he, h⟩ := bind_eq_ok.mp h
    obtain ⟨inserted, hi, h⟩ := bind_eq_ok.mp h
    cases h
    exact ⟨(field_insert? hi).2.1.trans (field_erase? he).2.1, rfl⟩
  · cases h
    exact ⟨rfl, rfl⟩

/-- Folding Sunday leaves no `7`, however it came into the set. -/
theorem Between.foldSunday (h : s.Between 0 7) (ht : Schedule.foldSunday s = .ok t) :
    t.Between 0 6 where
  least_eq := (bounds_of_foldSunday ht).1.trans h.least_eq
  greatest_eq := (bounds_of_foldSunday ht).2
  bounds n hn := by
    rcases (Schedule.mem_of_foldSunday ht).mp hn with ⟨hn, hne⟩ | ⟨rfl, -⟩
    · have := h.bounds n hn
      omega
    · decide
  nonempty := by
    obtain ⟨n, hn⟩ := h.nonempty
    by_cases hseven : n = 7
    · exact ⟨0, (Schedule.mem_of_foldSunday ht).mpr (Or.inr ⟨rfl, hseven ▸ hn⟩)⟩
    · exact ⟨n, (Schedule.mem_of_foldSunday ht).mpr (Or.inl ⟨hn, hseven⟩)⟩

/-! ### Listing and counting -/

/-- A set that keeps its bounds lists all its members. -/
theorem mem_toList_of_bounds (h : ∀ n ∈ s, s.Bounds n) : n ∈ s.toList ↔ n ∈ s := by
  rw [mem_toList]
  exact and_iff_right_of_imp (h n)

/-- A set that keeps its bounds is as large as its list is long. -/
theorem size_eq_length (h : ∀ n ∈ s, s.Bounds n) : s.size = s.toList.length := by
  rw [size, List.countP_eq_length_filter]
  congr 1
  refine List.Pairwise.eq_of_mem_iff (List.pairwise_lt_range.filter _) s.pairwise_toList ?_
  intro n
  rw [mem_toList_of_bounds h, List.mem_filter, List.mem_range, decide_eq_true_eq]
  exact ⟨And.right, fun hn => ⟨lt_of_mem hn, hn⟩⟩

theorem Between.keeps (h : s.Between a b) : ∀ n ∈ s, s.Bounds n := fun n hn => by
  rw [Bounds, h.least_eq, h.greatest_eq]
  exact h.bounds n hn

theorem Between.mem_toList (h : s.Between a b) : n ∈ s.toList ↔ n ∈ s :=
  mem_toList_of_bounds h.keeps

/-- Sets between bounds that are listed alike have the same members. -/
theorem Between.mem_congr (hs : s.Between a b) (ht : t.Between a b) (h : s.toList = t.toList)
    (n : Nat) : n ∈ s ↔ n ∈ t := by
  rw [← hs.mem_toList, h, ht.mem_toList]

/-- **A set that is full is listed from bound to bound.** -/
theorem Between.isFull_iff_toList (h : s.Between a b) :
    s.isFull = true ↔ s.toList = List.range' a (b + 1 - a) := by
  have hsub : s.toList.Sublist (List.range' a (b + 1 - a)) := by
    rw [toList, h.least_eq, h.greatest_eq]
    exact List.filter_sublist
  have hab : a ≤ b := by
    obtain ⟨n, hn⟩ := h.nonempty
    have := h.bounds n hn
    omega
  rw [isFull, beq_iff_eq, size_eq_length h.keeps, h.least_eq, h.greatest_eq]
  constructor
  · intro hlen
    refine hsub.eq_of_length ?_
    rw [hlen, List.length_range']
    omega
  · intro heq
    rw [heq, List.length_range']
    omega

/-- A set is full exactly if it holds all there is between its bounds. -/
theorem Between.isFull_iff (h : s.Between a b) :
    s.isFull = true ↔ ∀ n, a ≤ n → n ≤ b → n ∈ s := by
  rw [h.isFull_iff_toList]
  constructor
  · intro heq n ha hb
    rw [← h.mem_toList, heq, List.mem_range'_1]
    omega
  · intro hall
    refine List.Pairwise.eq_of_mem_iff s.pairwise_toList List.pairwise_lt_range' fun n => ?_
    rw [h.mem_toList, List.mem_range'_1]
    constructor
    · intro hn
      have := h.bounds n hn
      omega
    · intro hn
      exact hall n (by omega) (by omega)

/-- Sets between the same bounds with the same members are listed alike. -/
theorem Between.listed_congr (hs : s.Between a b) (ht : t.Between a b)
    (h : ∀ n, n ∈ s ↔ n ∈ t) : s.toList = t.toList ∧ s.isFull = t.isFull := by
  constructor
  · refine List.Pairwise.eq_of_mem_iff s.pairwise_toList t.pairwise_toList fun n => ?_
    rw [hs.mem_toList, h, ht.mem_toList]
  · rw [Bool.eq_iff_iff, hs.isFull_iff, ht.isFull_iff]
    simp only [h]

end FieldSet

namespace Schedule

variable {s : Schedule} {c : CivilMinute}

/-- **All five sets keep their bounds and hold something**, months from `0` and weekdays to
`6`. -/
structure Bounded (s : Schedule) : Prop where
  minutes : s.minutes.Between 0 59
  hours : s.hours.Between 0 23
  days : s.days.Between 1 31
  months : s.months.Between 0 11
  weekdays : s.weekdays.Between 0 6

/-- What reading five fields one by one makes of them. -/
theorem bounded_of_ofFields {whole : String} {text : Field → List Char}
    (h : ofFields whole (text .minute) (text .hour) (text .day) (text .month) (text .weekday) =
      .ok s) :
    s.Bounded ∧ s.anyDay = decide (text .day = ['*']) ∧
      s.anyWeekday = decide (text .weekday = ['*']) := by
  obtain ⟨set, weekdays, hread, hfold, -, rfl⟩ := ofFields_eq_ok.mp h
  have hset : ∀ f, (set f).Between f.least f.greatest :=
    fun f => (FieldSet.fresh_of_read (hread f)).between
  exact ⟨⟨hset .minute, hset .hour, hset .day, (hset .month).shiftDown (Nat.le_refl 1),
    (hset .weekday).foldSunday hfold⟩, rfl, rfl⟩

/-- An expression that describes a schedule falls into five words, of which its fields are
read. -/
theorem exists_fields_of_parse {expression : String} (hs : parse expression = .ok s) :
    ∃ text : Field → List Char, FallsInto expression.toList (Field.all.map text) ∧
      ofFields (String.ofList (trim expression.toList)) (text .minute) (text .hour) (text .day)
        (text .month) (text .weekday) = .ok s := by
  obtain ⟨ws, hws⟩ := exists_fallsInto expression.toList
  rcases parse_outcome hws with ⟨-, hp⟩ | ⟨-, -, hp⟩ | ⟨-, text, rfl, hp⟩
  · rw [hp] at hs
    cases hs
  · rw [hp] at hs
    cases hs
  · exact ⟨text, hws, hp.symm.trans hs⟩

theorem bounded_of_parse {expression : String} (hs : parse expression = .ok s) : s.Bounded := by
  obtain ⟨_, -, h⟩ := exists_fields_of_parse hs
  exact (bounded_of_ofFields h).1

/-- **What a schedule admits, by membership alone.** -/
theorem admits_iff_mem (hv : s.Valid) (hc : c.Exists) : s.admits c = true ↔
    (c.minute ∈ s.minutes ∧ c.hour ∈ s.hours ∧ c.month ∈ s.months) ∧
      if s.eitherDay then c.day ∈ s.days ∨ c.toDate.weekday ∈ s.weekdays
      else c.day ∈ s.days ∧ c.toDate.weekday ∈ s.weekdays := by
  obtain ⟨-, ⟨hday, hday'⟩, -⟩ := hc.bounds
  have hweekday := c.toDate.weekday_le
  rw [admits_iff, and_assoc, and_assoc]
  refine and_congr_right fun _ => and_congr_right fun _ => and_congr_right fun _ => ?_
  -- a bare star makes the other field decide, and holds of every day itself
  cases hany : s.anyDay <;> cases hany' : s.anyWeekday <;>
    simp [admitsDay, eitherDay, hany, hany']
  · exact fun _ => hv.every_weekday hany' _ hweekday
  · exact fun _ => hv.every_day hany _ hday hday'
  · exact ⟨hv.every_day hany _ hday hday', hv.every_weekday hany' _ hweekday⟩

/-- **Every schedule that comes from an expression keeps what the search and the description rely
on.**  Its sets keep their bounds and hold something.  It has a bare star for the day or the
weekday exactly if the text does, and then that set is full.  So every wall time is admitted by
membership alone: in all five sets, unless the day and the weekday are both restricted in writing
and either suffices. -/
theorem parse_invariant {expression : String} (hs : parse expression = .ok s) :
    s.Bounded ∧
    (∃ text : Field → List Char, FallsInto expression.toList (Field.all.map text) ∧
      (s.anyDay = true ↔ text .day = ['*']) ∧ (s.anyWeekday = true ↔ text .weekday = ['*'])) ∧
    (s.anyDay = true → s.days.isFull = true ∧ ∀ n, n ∈ s.days ↔ 1 ≤ n ∧ n ≤ 31) ∧
    (s.anyWeekday = true → s.weekdays.isFull = true ∧ ∀ n, n ∈ s.weekdays ↔ n ≤ 6) ∧
    ∀ t : WallTime, s.admitsWall t = true ↔
      (t.civil.minute ∈ s.minutes ∧ t.civil.hour ∈ s.hours ∧ t.civil.month ∈ s.months) ∧
        if s.eitherDay then t.civil.day ∈ s.days ∨ t.civil.toDate.weekday ∈ s.weekdays
        else t.civil.day ∈ s.days ∧ t.civil.toDate.weekday ∈ s.weekdays := by
  have hv := valid_of_parse hs
  obtain ⟨text, hws, hfields⟩ := exists_fields_of_parse hs
  obtain ⟨hb, hday, hweekday⟩ := bounded_of_ofFields hfields
  refine ⟨hb, ⟨text, hws, ?_, ?_⟩, fun hany => ?_, fun hany => ?_,
    fun t => admits_iff_mem hv t.civil_inUse.exists⟩
  · rw [hday, decide_eq_true_eq]
  · rw [hweekday, decide_eq_true_eq]
  · have hall := hv.every_day hany
    exact ⟨hb.days.isFull_iff.mpr hall,
      fun n => ⟨hb.days.bounds n, fun ⟨h1, h31⟩ => hall n h1 h31⟩⟩
  · have hall := hv.every_weekday hany
    exact ⟨hb.weekdays.isFull_iff.mpr fun n _ => hall n,
      fun n => ⟨fun hn => (hb.weekdays.bounds n hn).2, hall n⟩⟩

/-- Friday to Sunday, written with a `7` that is folded, and any day of the month: the fold leaves
three weekdays, no bare star stands in either field, and either suffices. -/
theorem parse_invariant_sunday : ∃ s, parse "0 9 1-31 * fri-7" = .ok s ∧
    (s.weekdays.toList = [0, 5, 6] ∧ s.anyDay = false ∧ s.eitherDay = true) ∧ s.Bounded ∧
    ∀ t : WallTime, s.admitsWall t = true ↔
      (t.civil.minute ∈ s.minutes ∧ t.civil.hour ∈ s.hours ∧ t.civil.month ∈ s.months) ∧
        (t.civil.day ∈ s.days ∨ t.civil.toDate.weekday ∈ s.weekdays) := by
  obtain ⟨s, hs, hfold, hany, heither⟩ := exists_of_parse "0 9 1-31 * fri-7"
    (fun s => s.weekdays.toList = [0, 5, 6] ∧ s.anyDay = false ∧ s.eitherDay = true)
    (by decide +kernel)
  obtain ⟨hb, -, -, -, hadmits⟩ := parse_invariant hs
  exact ⟨s, hs, ⟨hfold, hany, heither⟩, hb, fun t => by simpa [heither] using hadmits t⟩

end Schedule

end Crontab
