import Crontab.Proofs.Grammar

/-! # The grammar of an expression

An expression is five words, each of which describes numbers of its field.  **Reading an
expression comes to the end that the grammar foresees** (`Schedule.parse_grammar`): it is refused
as blank, for the number of its words, for a word that describes nothing, or for want of a date,
and is otherwise the schedule that allows what the words describe (`Schedule.Holds`).

The fields are read one after the other, and a field that describes nothing stops the reading
whatever stands in the others (`Schedule.refused_of_readField`).
-/

namespace Crontab

open Outcome

namespace Schedule

variable {text : Field → List Char} {sets : Field → Set Int}

/-- **The schedule allows what its fields describe**, with months from `0` and weekdays without
`7`, which is `0`. -/
structure Holds (s : Schedule) (sets : Field → Set Int) : Prop where
  minutes : ∀ n : Nat, n ∈ s.minutes ↔ (n : Int) ∈ sets .minute
  hours : ∀ n : Nat, n ∈ s.hours ↔ (n : Int) ∈ sets .hour
  days : ∀ n : Nat, n ∈ s.days ↔ (n : Int) ∈ sets .day
  months : ∀ n : Nat, n ∈ s.months ↔ (n : Int) + 1 ∈ sets .month
  weekdays : ∀ n : Nat, n ∈ s.weekdays ↔
    (n : Int) ∈ sets .weekday ∧ n ≠ 7 ∨ n = 0 ∧ (7 : Int) ∈ sets .weekday

/-- Sunday can be folded in every weekday field. -/
theorem exists_foldSunday {set : FieldSet} (h : set.Fresh .weekday) :
    ∃ folded, foldSunday set = .ok folded := by
  have hbounds : ∀ n ≤ 7, set.Bounds n := fun n hn => by
    rw [FieldSet.Bounds, h.least_eq, h.greatest_eq]
    exact ⟨Nat.zero_le n, hn⟩
  unfold foldSunday
  split
  · exact ⟨_, bind_eq_ok.mpr ⟨_, if_pos (hbounds 7 (by decide)),
      bind_eq_ok.mpr ⟨_, if_pos (hbounds 0 (by decide)), rfl⟩⟩⟩
  · exact ⟨_, rfl⟩

/-- The schedule whose fields have been read, each of them as a set. -/
def ofSets (whole : String) (text : Field → List Char) (set : Field → FieldSet)
    (weekdays : FieldSet) : Schedule where
  text := whole
  minutes := set .minute
  hours := set .hour
  days := set .day
  months := (set .month).shiftDown 1
  weekdays := weekdays
  anyDay := text .day = ['*']
  anyWeekday := text .weekday = ['*']

section

variable {set : Field → FieldSet} {weekdays : FieldSet}

theorem ofSets_holds (whole : String) (text : Field → List Char)
    (hfold : foldSunday (set .weekday) = .ok weekdays) :
    (ofSets whole text set weekdays).Holds fun f => (set f).numbers := by
  refine ⟨fun n => ?_, fun n => ?_, fun n => ?_, fun n => ?_, fun n => ?_⟩
  · exact FieldSet.mem_numbers.symm
  · exact FieldSet.mem_numbers.symm
  · exact FieldSet.mem_numbers.symm
  · exact FieldSet.mem_shiftDown.trans FieldSet.mem_numbers.symm
  · refine (mem_of_foldSunday hfold).trans ?_
    rw [FieldSet.mem_numbers]
    exact or_congr_right (and_congr_right fun _ => FieldSet.mem_numbers.symm)

/-- Fields that can all be read make a schedule, if there is a date for it. -/
theorem ofFields_of_read (whole : String) (hread : ∀ f, FieldSet.read f (text f) = .ok (set f))
    (hfold : foldSunday (set .weekday) = .ok weekdays) :
    ofFields whole (text .minute) (text .hour) (text .day) (text .month) (text .weekday) =
      if isFeasible (set .day) ((set .month).shiftDown 1) then
        .ok (ofSets whole text set weekdays)
      else .error (.neverADate (set .day).toList
        (((set .month).shiftDown 1).toList.map (· + 1))) := by
  have hfields : ∀ f, readField f (text f) = .ok (set f) := fun f => readField_eq_ok.mpr (hread f)
  have hfolded : (foldSunday (set .weekday)).mapError ExpressionError.field = .ok weekdays :=
    mapError_eq_ok.mpr hfold
  simp only [ofFields, hfields, hfolded, bind, Except.bind]
  rfl

end

/-- **Fields that describe something are read as the schedule that allows it**, if there is a
date for it. -/
theorem ofFields_of_describes (whole : String)
    (h : ∀ f : Field, f.Describes (text f) (sets f)) :
    ∃ s : Schedule, s.Holds sets ∧
      ofFields whole (text .minute) (text .hour) (text .day) (text .month) (text .weekday) =
        if isFeasible s.days s.months then .ok s
        else .error (.neverADate s.days.toList (s.months.toList.map (· + 1))) := by
  simp only [Field.describes_iff] at h
  choose set hread hset using h
  obtain rfl : sets = fun f => (set f).numbers := funext hset
  obtain ⟨weekdays, hfold⟩ := exists_foldSunday (FieldSet.fresh_of_read (hread .weekday))
  exact ⟨_, ofSets_holds whole text hfold, ofFields_of_read whole hread hfold⟩

/-- Where every field describes something, only the want of a date is left to go wrong. -/
theorem neverADate_of_describes {whole : String} {e : ExpressionError}
    (hall : ∀ f : Field, ∃ S, f.Describes (text f) S)
    (h : ofFields whole (text .minute) (text .hour) (text .day) (text .month) (text .weekday) =
      .error e) :
    ∃ days months, e = .neverADate days months := by
  choose sets hsets using hall
  obtain ⟨s, -, hs⟩ := ofFields_of_describes whole hsets
  rw [hs] at h
  split at h <;> cases h
  exact ⟨_, _, rfl⟩

/-- A field that describes nothing is refused, and if it describes something the fields after it
may still be. -/
theorem refused_of_readField {f : Field} {text : List Char}
    {next : FieldSet → Except ExpressionError Schedule}
    (h : ∀ S, f.Describes text S → ∀ set, ∃ reason, next set = .error (.field reason)) :
    ∃ reason, (readField f text >>= next) = .error (.field reason) := by
  unfold readField
  cases hread : FieldSet.read f text with
  | error reason => exact ⟨reason, rfl⟩
  | ok set => exact h _ (Field.describes_iff.mpr ⟨set, hread, rfl⟩) set

/-- **Fields are refused exactly if one of them describes nothing.** -/
theorem ofFields_refused_iff (whole : String) :
    (∃ reason, ofFields whole (text .minute) (text .hour) (text .day) (text .month)
        (text .weekday) = .error (.field reason)) ↔
      ∃ f : Field, ∀ S, ¬ f.Describes (text f) S := by
  constructor
  · rintro ⟨reason, h⟩
    by_contra hall
    simp only [not_exists, not_forall, not_not] at hall
    obtain ⟨_, _, ⟨⟩⟩ := neverADate_of_describes hall h
  · rintro ⟨f, hf⟩
    -- if all the fields described something, the one that does not would
    refine refused_of_readField fun _ hminute _ => refused_of_readField fun _ hhour _ =>
      refused_of_readField fun _ hday _ => refused_of_readField fun _ hmonth _ =>
      refused_of_readField fun _ hweekday _ => ?_
    cases f
    · exact absurd hminute (hf _)
    · exact absurd hhour (hf _)
    · exact absurd hday (hf _)
    · exact absurd hmonth (hf _)
    · exact absurd hweekday (hf _)

/-- **Fields make a schedule exactly if all can be read and there is a date for them.** -/
theorem ofFields_eq_ok {whole : String} {s : Schedule} :
    ofFields whole (text .minute) (text .hour) (text .day) (text .month) (text .weekday) =
        .ok s ↔
      ∃ (set : Field → FieldSet) (weekdays : FieldSet),
        (∀ f, FieldSet.read f (text f) = .ok (set f)) ∧
        foldSunday (set .weekday) = .ok weekdays ∧
        isFeasible (set .day) ((set .month).shiftDown 1) = true ∧
        ofSets whole text set weekdays = s := by
  constructor
  · intro h
    have hall : ∀ f : Field, ∃ set, FieldSet.read f (text f) = .ok set := by
      by_contra hnone
      obtain ⟨f, hf⟩ := not_forall.mp hnone
      obtain ⟨_, hrefused⟩ := (ofFields_refused_iff whole).mpr ⟨f, fun S hS => hf <| by
        obtain ⟨set, hset, -⟩ := Field.describes_iff.mp hS
        exact ⟨set, hset⟩⟩
      rw [hrefused] at h
      cases h
    choose set hread using hall
    obtain ⟨weekdays, hfold⟩ := exists_foldSunday (FieldSet.fresh_of_read (hread .weekday))
    rw [ofFields_of_read whole hread hfold] at h
    split at h
    · rename_i hfeasible
      exact ⟨set, weekdays, hread, hfold, hfeasible, Except.ok.inj h⟩
    · cases h
  · rintro ⟨set, weekdays, hread, hfold, hfeasible, rfl⟩
    rw [ofFields_of_read whole hread hfold, if_pos hfeasible]

theorem error_of_ofFields {whole : String} {e : ExpressionError}
    (h : ofFields whole (text .minute) (text .hour) (text .day) (text .month) (text .weekday) =
      .error e) :
    (∃ reason, e = .field reason) ∨ ∃ days months, e = .neverADate days months := by
  by_cases hall : ∀ f : Field, ∃ S, f.Describes (text f) S
  · exact Or.inr (neverADate_of_describes hall h)
  · simp only [not_forall, not_exists] at hall
    obtain ⟨reason, hreason⟩ := (ofFields_refused_iff whole).mpr hall
    rw [hreason] at h
    cases h
    exact Or.inl ⟨reason, rfl⟩

variable {expression : String} {ws : List (List Char)}

theorem parse_of_blank (h : ∀ c ∈ expression.toList, isBlank c = true) :
    parse expression = .error .empty :=
  if_pos (trim_eq_nil_iff.mpr h)

theorem parse_of_length (hws : FallsInto expression.toList ws)
    (hsome : ¬ ∀ c ∈ expression.toList, isBlank c = true) (hlength : ws.length ≠ 5) :
    parse expression = .error (.fieldCount ws.length) := by
  unfold parse
  dsimp only
  rw [if_neg (mt trim_eq_nil_iff.mp hsome), words_trim, fallsInto_iff.mp hws]
  split
  · exact absurd rfl hlength
  · rfl

theorem parse_of_fields (hws : FallsInto expression.toList (Field.all.map text)) :
    parse expression = ofFields (String.ofList (trim expression.toList)) (text .minute)
      (text .hour) (text .day) (text .month) (text .weekday) := by
  have hwords : words (trim expression.toList) = Field.all.map text :=
    (words_trim _).trans (fallsInto_iff.mp hws)
  have hne : trim expression.toList ≠ [] := by
    intro hnil
    rw [hnil] at hwords
    cases hwords
  unfold parse
  dsimp only
  rw [if_neg hne, hwords]
  rfl

theorem exists_texts (h : ws.length = 5) : ∃ text : Field → List Char, ws = Field.all.map text := by
  match ws, h with
  | [minute, hour, day, month, weekday], _ =>
    exact ⟨fun f => [minute, hour, day, month, weekday].getD f.index [], rfl⟩

/-- An expression is blank, or has a wrong number of words, or is read as five fields. -/
theorem parse_outcome (hws : FallsInto expression.toList ws) :
    ((∀ c ∈ expression.toList, isBlank c = true) ∧ parse expression = .error .empty) ∨
    (¬ (∀ c ∈ expression.toList, isBlank c = true) ∧ ws.length ≠ 5 ∧
      parse expression = .error (.fieldCount ws.length)) ∨
    ((¬ ∀ c ∈ expression.toList, isBlank c = true) ∧ ∃ text : Field → List Char,
      ws = Field.all.map text ∧
      parse expression = ofFields (String.ofList (trim expression.toList)) (text .minute)
        (text .hour) (text .day) (text .month) (text .weekday)) := by
  by_cases hblank : ∀ c ∈ expression.toList, isBlank c = true
  · exact Or.inl ⟨hblank, parse_of_blank hblank⟩
  · by_cases hlength : ws.length = 5
    · obtain ⟨text, rfl⟩ := exists_texts hlength
      exact Or.inr (Or.inr ⟨hblank, text, rfl, parse_of_fields hws⟩)
    · exact Or.inr (Or.inl ⟨hblank, hlength, parse_of_length hws hblank hlength⟩)

/-- An expression is refused as empty exactly if it is blank. -/
theorem parse_eq_empty_iff :
    parse expression = .error .empty ↔ ∀ c ∈ expression.toList, isBlank c = true := by
  refine ⟨fun h => ?_, parse_of_blank⟩
  obtain ⟨ws, hws⟩ := exists_fallsInto expression.toList
  rcases parse_outcome hws with ⟨hblank, -⟩ | ⟨-, -, hp⟩ | ⟨-, text, -, hp⟩
  · exact hblank
  · rw [hp] at h
    cases h
  · rw [hp] at h
    rcases error_of_ofFields h with ⟨_, ⟨⟩⟩ | ⟨_, _, ⟨⟩⟩

/-- An expression is refused for the number of its words exactly if it has some and not five. -/
theorem parse_eq_fieldCount_iff (hws : FallsInto expression.toList ws) {count : Nat} :
    parse expression = .error (.fieldCount count) ↔
      (¬ ∀ c ∈ expression.toList, isBlank c = true) ∧ ws.length = count ∧ count ≠ 5 := by
  constructor
  · intro h
    rcases parse_outcome hws with ⟨-, hp⟩ | ⟨hsome, hlength, hp⟩ | ⟨-, text, -, hp⟩
    · rw [hp] at h
      cases h
    · rw [hp] at h
      cases h
      exact ⟨hsome, rfl, hlength⟩
    · rw [hp] at h
      rcases error_of_ofFields h with ⟨_, ⟨⟩⟩ | ⟨_, _, ⟨⟩⟩
  · rintro ⟨hsome, rfl, hlength⟩
    exact parse_of_length hws hsome hlength

/-- An expression is refused for a field exactly if it has five words and one of them describes
nothing. -/
theorem parse_refused_iff (hws : FallsInto expression.toList ws) :
    (∃ reason, parse expression = .error (.field reason)) ↔
      ∃ text : Field → List Char, ws = Field.all.map text ∧
        ∃ f : Field, ∀ S, ¬ f.Describes (text f) S := by
  constructor
  · rintro ⟨reason, h⟩
    rcases parse_outcome hws with ⟨-, hp⟩ | ⟨-, -, hp⟩ | ⟨-, text, htext, hp⟩
    · rw [hp] at h
      cases h
    · rw [hp] at h
      cases h
    · rw [hp] at h
      exact ⟨text, htext, (ofFields_refused_iff _).mp ⟨reason, h⟩⟩
  · rintro ⟨text, rfl, hf⟩
    rw [parse_of_fields hws]
    exact (ofFields_refused_iff _).mpr hf

/-- **Reading an expression comes to the end that the grammar foresees.**  The expression falls
into words.  It is refused as empty exactly if it is blank, for the number of its words exactly if
it is not blank and they are not five, and for a field exactly if they are five and one of them
describes nothing.  Five words that describe something are read as the schedule that allows what
they describe, if it has a date. -/
theorem parse_grammar (expression : String) : ∃ ws, FallsInto expression.toList ws ∧
    (parse expression = .error .empty ↔ ∀ c ∈ expression.toList, isBlank c = true) ∧
    (∀ count, parse expression = .error (.fieldCount count) ↔
      (¬ ∀ c ∈ expression.toList, isBlank c = true) ∧ ws.length = count ∧ count ≠ 5) ∧
    ((∃ reason, parse expression = .error (.field reason)) ↔
      ∃ text : Field → List Char, ws = Field.all.map text ∧
        ∃ f : Field, ∀ S, ¬ f.Describes (text f) S) ∧
    (∀ (text : Field → List Char) (sets : Field → Set Int), ws = Field.all.map text →
      (∀ f : Field, f.Describes (text f) (sets f)) →
      ∃ s : Schedule, s.Holds sets ∧ parse expression =
        if isFeasible s.days s.months then .ok s
        else .error (.neverADate s.days.toList (s.months.toList.map (· + 1)))) := by
  obtain ⟨ws, hws⟩ := exists_fallsInto expression.toList
  refine ⟨ws, hws, parse_eq_empty_iff, fun count => parse_eq_fieldCount_iff hws,
    parse_refused_iff hws, ?_⟩
  rintro text sets rfl hsets
  rw [parse_of_fields hws]
  exact ofFields_of_describes _ hsets

/-- A number that is spelled with a dash is read as a range, even if it lies within the bounds: an
integer may be written `-0`, and a minute may not. -/
theorem parse_minusZero :
    FallsInto "-0 * * * *".toList [['-', '0'], ['*'], ['*'], ['*'], ['*']] ∧
    Field.minute.Spells ['-', '0'] 0 ∧
    ((Field.minute.least : Int) ≤ 0 ∧ (0 : Int) ≤ Field.minute.greatest) ∧
    (∀ f : Field, f.Describes ['*'] f.bounds) ∧
    ∃ reason, parse "-0 * * * *" = .error (.field reason) := by
  refine ⟨fallsInto_iff.mpr (by decide), .integer (.minus (.digit ?_ ?_) ?_), ?_, fun f => .star,
    .badValue .minute "", ?_⟩
  all_goals decide

end Schedule

end Crontab
