import Crontab.Proofs.Feasible
import Crontab.Proofs.SteadyClock
import Mathlib.Logic.Function.Basic

/-! # Days, weekdays and either

An expression that restricts the day and the weekday means two expressions, one with a bare star for
the weekday and one with a bare star for the day.  Both are accepted if it is, since a star in the
place of a field takes no date away (`Schedule.parse_of_star`), and it admits what either of them
does.

A search takes another way through the calendar for each of the three.  On a clock that is never
changed it comes to the nearest occurrence ahead whichever way it takes, so that what the schedules
admit is all that counts.  **A search for what either of two schedules admits comes to the nearer of
what the searches for each of them come to** (`Schedule.occurrence_either`), and so does one for the
day or the weekday (`Schedule.parse_eitherDay`).
-/

namespace Crontab

/-! ### What two searches come to -/

/-- **What two searches come to between them**: the nearer of two instants, where a search that has
left the calendar has come to none. -/
def Direction.nearerOf (d : Direction) :
    Except SearchError Instant → Except SearchError Instant → Except SearchError Instant
  | .ok a, .ok b => .ok (d.nearer a b)
  | .error .outOfCalendar, found => found
  | found, .error .outOfCalendar => found
  | .error e, _ => .error e
  | _, .error e => .error e

namespace Schedule

variable {s a b : Schedule} {z : Zone} {offset : Int} {d : Direction} {origin r t : Instant}

/-- Only one occurrence is the nearest. -/
theorem NearestDue.unique (hr : s.NearestDue z d origin r) (ht : s.NearestDue z d origin t) :
    r = t := by
  rcases hr.nearest t ht.toDueAhead with rfl | hrt
  · rfl
  · rcases ht.nearest r hr.toDueAhead with rfl | htr
    · rfl
    · exact absurd (Direction.past_trans hrt htr) (Direction.past_irrefl r)

section

variable (hz : z.Steady offset) (heither : ∀ m, s.admits m = (a.admits m || b.admits m))

include hz heither

/-- What either of two schedules admits lies ahead exactly if it does for one of them. -/
theorem dueAhead_either :
    s.DueAhead z d origin t ↔ a.DueAhead z d origin t ∨ b.DueAhead z d origin t := by
  simp only [dueAhead_iff hz, heither, Bool.or_eq_true, and_or_left, or_and_right, exists_or]

/-- The nearest occurrence of one schedule is the nearest of either if the other has none ahead. -/
theorem NearestDue.either_of_none (hr : a.NearestDue z d origin r)
    (hnone : ¬ ∃ t, b.DueAhead z d origin t) : s.NearestDue z d origin r where
  toDueAhead := (dueAhead_either hz heither).mpr (Or.inl hr.toDueAhead)
  nearest t ht := by
    rcases (dueAhead_either hz heither).mp ht with ha | hb
    · exact hr.nearest t ha
    · exact absurd ⟨t, hb⟩ hnone

/-- **The nearer of the nearest occurrences of two schedules is the nearest of either.** -/
theorem NearestDue.either (hr : a.NearestDue z d origin r) (ht : b.NearestDue z d origin t) :
    s.NearestDue z d origin (d.nearer r t) := by
  obtain ⟨hfirst, hsecond⟩ := Direction.nearer_spec d r t
  refine ⟨(dueAhead_either hz heither).mpr ?_, fun u hu => ?_⟩
  · rcases Direction.nearer_eq d r t with heq | heq
    · rw [heq]
      exact Or.inl hr.toDueAhead
    · rw [heq]
      exact Or.inr ht.toDueAhead
  · have hpast : ∀ {x}, (d.nearer r t = x ∨ d.Past (d.nearer r t) x) → u = x ∨ d.Past x u →
        u = d.nearer r t ∨ d.Past (d.nearer r t) u := by
      rintro x (rfl | hx) (rfl | hu)
      · exact Or.inl rfl
      · exact Or.inr hu
      · exact Or.inr hx
      · exact Or.inr (Direction.past_trans hx hu)
    rcases (dueAhead_either hz heither).mp hu with ha | hb
    · exact hpast hfirst (hr.nearest u ha)
    · exact hpast hsecond (ht.nearest u hb)

/-- **A search for what either of two schedules admits** comes to the nearer of what the searches
for each of them come to. -/
theorem occurrence_either (hs : s.Valid) (ha : a.Valid) (hb : b.Valid)
    (hin : offset = 0 ∨ origin.Inside 87600) :
    s.occurrence z d origin = d.nearerOf (a.occurrence z d origin) (b.occurrence z d origin) := by
  have hfound : ∀ {r}, s.NearestDue z d origin r → s.occurrence z d origin = .ok r := by
    intro r hr
    obtain ⟨t, ht, hnearest⟩ := (steady_total hs hz d hin).1 ⟨r, hr.toDueAhead⟩
    rw [ht, hr.unique hnearest]
  have hswap : ∀ m, s.admits m = (b.admits m || a.admits m) := fun m => by
    rw [heither, Bool.or_comm]
  rcases steady_outcome ha hz d hin with ⟨r, hr, hnear⟩ | ⟨hr, hnone⟩
  · rcases steady_outcome hb hz d hin with ⟨t, ht, hnear'⟩ | ⟨ht, hnone'⟩
    · rw [hr, ht, hfound (hnear.either hz heither hnear')]
      rfl
    · rw [hr, ht, hfound (hnear.either_of_none hz heither hnone')]
      rfl
  · rcases steady_outcome hb hz d hin with ⟨t, ht, hnear'⟩ | ⟨ht, hnone'⟩
    · rw [hr, ht, hfound (hnear'.either_of_none hz hswap hnone)]
      rfl
    · rw [hr, ht]
      refine (steady_total hs hz d hin).2.mpr ?_
      rintro ⟨u, hu⟩
      rcases (dueAhead_either hz heither).mp hu with hu | hu
      · exact hnone ⟨u, hu⟩
      · exact hnone' ⟨u, hu⟩

end

/-! ### A star in the place of a field -/

section

variable {text : Field → List Char} {set : Field → FieldSet} {all weekdays : FieldSet} {f : Field}
  {e : String}

/-- With a star in the place of a field, that field is read as the set of all that it may hold. -/
theorem read_update_star (hread : ∀ g, FieldSet.read g (text g) = .ok (set g))
    (hall : FieldSet.full f = .ok all) (g : Field) :
    FieldSet.read g (Function.update text f ['*'] g) = .ok (Function.update set f all g) := by
  by_cases hg : g = f
  · subst hg
    rw [Function.update_self, Function.update_self]
    exact hall
  · rw [Function.update_of_ne hg, Function.update_of_ne hg]
    exact hread g

/-- A star holds what was in its place. -/
theorem mem_update_full (hread : ∀ g, FieldSet.read g (text g) = .ok (set g))
    (hall : FieldSet.full f = .ok all) {g : Field} {n : Nat} (hn : n ∈ set g) :
    n ∈ Function.update set f all g := by
  by_cases hg : g = f
  · subst hg
    rw [Function.update_self]
    exact (FieldSet.mem_full hall).mpr ((FieldSet.fresh_of_read (hread g)).bounds n hn)
  · rwa [Function.update_of_ne hg]

/-- **An expression that is accepted is accepted with a star in the place of any field.** -/
theorem parse_of_star (hread : ∀ g, FieldSet.read g (text g) = .ok (set g))
    (hfeasible : isFeasible (set .day) ((set .month).shiftDown 1) = true)
    (hall : FieldSet.full f = .ok all)
    (hws : FallsInto e.toList (Field.all.map (Function.update text f ['*']))) :
    ∃ weekdays, foldSunday (Function.update set f all .weekday) = .ok weekdays ∧
      parse e = .ok (ofSets (String.ofList (trim e.toList)) (Function.update text f ['*'])
        (Function.update set f all) weekdays) := by
  have hread' := read_update_star hread hall
  obtain ⟨weekdays, hfold⟩ := exists_foldSunday (FieldSet.fresh_of_read (hread' .weekday))
  refine ⟨weekdays, hfold, (parse_of_fields hws).trans ((ofFields_of_read _ hread' hfold).trans
    (if_pos ?_))⟩
  obtain ⟨date, hexists, hday, hmonth⟩ := (isFeasible_iff_of_read hread).mp hfeasible
  exact (isFeasible_iff_of_read hread').mpr ⟨date, hexists, mem_update_full hread hall hday,
    mem_update_full hread hall hmonth⟩

end

/-! ### The day or the weekday -/

/-- **An expression for the day or the weekday is the union of one for the day and one for the
weekday.**  Where neither field is a bare star and the expression is accepted, so is the one with a
bare star for the weekday, and so is the one with a bare star for the day.  It admits what the clock
shows exactly if one of the two does.  A search of universal time comes to the nearer of what the
searches for the two come to: to the earlier of them forward, and to the later backward, where a
search that has left the calendar counts as having come to none. -/
theorem parse_eitherDay {text : Field → List Char} {e e₁ e₂ : String}
    (hday : text .day ≠ ['*']) (hweekday : text .weekday ≠ ['*'])
    (hws : FallsInto e.toList (Field.all.map text))
    (hws₁ : FallsInto e₁.toList (Field.all.map (Function.update text .weekday ['*'])))
    (hws₂ : FallsInto e₂.toList (Field.all.map (Function.update text .day ['*'])))
    (hs : parse e = .ok s) :
    ∃ byDay byWeekday, parse e₁ = .ok byDay ∧ parse e₂ = .ok byWeekday ∧
      (∀ w : WallTime, s.admitsWall w = true ↔
        byDay.admitsWall w = true ∨ byWeekday.admitsWall w = true) ∧
      ∀ (d : Direction) (origin : Instant), s.occurrence Zone.utc d origin =
        d.nearerOf (byDay.occurrence Zone.utc d origin)
          (byWeekday.occurrence Zone.utc d origin) := by
  obtain ⟨set, weekdays, hread, hfold, hfeasible, rfl⟩ :=
    ofFields_eq_ok.mp ((parse_of_fields hws).symm.trans hs)
  obtain ⟨allWeekdays, hallWeekdays⟩ := FieldSet.exists_full .weekday
  obtain ⟨allDays, hallDays⟩ := FieldSet.exists_full .day
  obtain ⟨every, -, hs₁⟩ := parse_of_star hread hfeasible hallWeekdays hws₁
  obtain ⟨same, hsame, hs₂⟩ := parse_of_star hread hfeasible hallDays hws₂
  obtain rfl : same = weekdays := Except.ok.inj (hsame.symm.trans hfold)
  have heither : ∀ m, (ofSets (String.ofList (trim e.toList)) text set same).admits m =
      ((ofSets (String.ofList (trim e₁.toList)) (Function.update text .weekday ['*'])
          (Function.update set .weekday allWeekdays) every).admits m ||
        (ofSets (String.ofList (trim e₂.toList)) (Function.update text .day ['*'])
          (Function.update set .day allDays) same).admits m) := by
    intro m
    simp [admits, admitsDay, ofSets, Function.update, hday, hweekday, Bool.and_or_distrib_left]
  refine ⟨_, _, hs₁, hs₂, fun w => ?_, fun d origin => ?_⟩
  · rw [admitsWall, heither, Bool.or_eq_true]
    rfl
  · exact occurrence_either Zone.steady_utc heither (valid_of_parse hs) (valid_of_parse hs₁)
      (valid_of_parse hs₂) (Or.inl rfl)

/-- Ten days before the calendar ends a Friday still lies ahead and a 13th does not, so a search for
either comes to the Friday. -/
theorem parse_eitherDay_friday : ∃ s byDay byWeekday, parse "0 0 13 * 5" = .ok s ∧
    parse "0 0 13 * *" = .ok byDay ∧ parse "0 0 * * 5" = .ok byWeekday ∧
    (∀ w : WallTime, s.admitsWall w = true ↔
      byDay.admitsWall w = true ∨ byWeekday.admitsWall w = true) ∧
    ∃ origin : Instant, origin.second = lastSecond - 864000 ∧
      byDay.occurrence Zone.utc .forward origin = .error .outOfCalendar ∧
      s.occurrence Zone.utc .forward origin = byWeekday.occurrence Zone.utc .forward origin := by
  let text : Field → List Char := fun f => [['0'], ['0'], ['1', '3'], ['*'], ['5']].getD f.index []
  let origin : Instant := ⟨lastSecond - 864000, 0, by decide, by decide, by decide⟩
  obtain ⟨s, hs, -⟩ := exists_of_parse "0 0 13 * 5" (fun _ => True) (by decide +kernel)
  obtain ⟨day, hday, hnone⟩ := exists_of_parse "0 0 13 * *"
    (fun s => s.occurrence Zone.utc .forward origin = .error .outOfCalendar) (by decide +kernel)
  have hws : FallsInto "0 0 13 * 5".toList (Field.all.map text) := fallsInto_iff.mpr (by decide)
  have hws₁ : FallsInto "0 0 13 * *".toList
      (Field.all.map (Function.update text .weekday ['*'])) := fallsInto_iff.mpr (by decide)
  have hws₂ : FallsInto "0 0 * * 5".toList
      (Field.all.map (Function.update text .day ['*'])) := fallsInto_iff.mpr (by decide)
  obtain ⟨byDay, byWeekday, hs₁, hs₂, hadmits, hsearch⟩ :=
    parse_eitherDay (by decide) (by decide) hws hws₁ hws₂ hs
  obtain rfl : byDay = day := Except.ok.inj (hs₁.symm.trans hday)
  refine ⟨s, byDay, byWeekday, hs, hs₁, hs₂, hadmits, origin, rfl, hnone, ?_⟩
  rw [hsearch, hnone]
  rfl

end Schedule

end Crontab
