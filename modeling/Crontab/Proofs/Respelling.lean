import Crontab.Proofs.Invariant
import Crontab.Schedule.Occurrence
import Mathlib.Data.List.DropRight

/-! # What the spelling of an expression makes no difference to

A schedule keeps the text that it is read from, without the blanks at its ends, and **that text is
read as the same schedule again** (`Schedule.parse_toString`).

Apart from the text it does not matter which blanks stand between the fields, nor in which case
their letters are (`SameLetters`).  What a field describes is followed up the grammar: the
characters that put the terms together and the integers are no letters and stay as they are
(`SameLetters.eq_of_le`), and a name is looked up in lower case (`Field.Spells.respell`).  So words
that have the same letters describe the same (`Field.describes_congr`) and are read as the same set
(`FieldSet.read_congr`).

A search looks at the sets of a schedule and at its bare stars and never at its text
(`Schedule.Respells.occurrence_eq`).
-/

namespace Crontab

open Outcome

variable {a b text : List Char} {c d sep : Char}

/-! ### Letters -/

/-- A character no later than the digits is the lower case of itself alone. -/
theorem toLower_eq_iff (hd : d ≤ '9') : c.toLower = d ↔ c = d := by
  constructor
  · rintro rfl
    by_cases hupper : c.val ≥ 'A'.val ∧ c.val ≤ 'Z'.val
    · -- a capital becomes a small letter, which comes after the digits
      unfold Char.toLower at hd
      rw [dif_pos hupper, Char.le_def, UInt32.le_iff_toNat_le, UInt32.toNat_add] at hd
      obtain ⟨hA, hZ⟩ := hupper
      rw [ge_iff_le, UInt32.le_iff_toNat_le] at hA
      rw [UInt32.le_iff_toNat_le] at hZ
      simp at hd hA hZ
      omega
    · unfold Char.toLower
      rw [dif_neg hupper]
  · rintro rfl
    exact toLower_of_le hd

/-- The texts differ at most in the case of their ASCII letters. -/
def SameLetters (a b : List Char) : Prop := a.map Char.toLower = b.map Char.toLower

instance (a b : List Char) : Decidable (SameLetters a b) := inferInstanceAs (Decidable (_ = _))

namespace SameLetters

theorem symm (h : SameLetters a b) : SameLetters b a := Eq.symm h

theorem mem_iff (h : SameLetters a b) (hc : c ≤ '9') : c ∈ a ↔ c ∈ b := by
  have hmap : ∀ {text : List Char}, c ∈ text.map Char.toLower ↔ c ∈ text := fun {text} => by
    simp [List.mem_map, toLower_eq_iff hc]
  rw [← hmap, h, hmap]

/-- A text without letters can be written in one way only. -/
theorem eq_of_le (h : SameLetters a b) (ha : ∀ c ∈ a, c ≤ '9') : b = a := by
  induction a generalizing b with
  | nil => exact List.map_eq_nil_iff.mp h.symm
  | cons c a ih =>
    obtain ⟨hc, ha⟩ := List.forall_mem_cons.mp ha
    obtain ⟨d, b, rfl, hd, hb⟩ := List.map_eq_cons_iff.mp h.symm
    rw [toLower_of_le hc] at hd
    rw [(toLower_eq_iff hc).mp hd, ih hb.symm ha]

/-- A text is cut at the same place in whichever case it is written. -/
theorem exists_cut (h : SameLetters (a ++ sep :: b) text) (hsep : sep ≤ '9') :
    ∃ a' b', text = a' ++ sep :: b' ∧ SameLetters a a' ∧ SameLetters b b' := by
  unfold SameLetters at h
  rw [List.map_append, List.map_cons, toLower_of_le hsep] at h
  obtain ⟨a', rest, rfl, ha, hrest⟩ := List.map_eq_append_iff.mp h.symm
  obtain ⟨d, b', rfl, hd, hb⟩ := List.map_eq_cons_iff.mp hrest
  rw [(toLower_eq_iff hsep).mp hd]
  exact ⟨a', b', rfl, ha.symm, hb.symm⟩

end SameLetters

theorem Separated.respell {pieces : List (List Char)} (h : Separated sep a pieces)
    (hsep : sep ≤ '9') (hb : SameLetters a b) :
    ∃ pieces', Separated sep b pieces' ∧ List.Forall₂ SameLetters pieces pieces' := by
  induction h generalizing b with
  | one hone => exact ⟨[b], .one (mt (hb.mem_iff hsep).mpr hone), .cons hb .nil⟩
  | more hfirst _ ih =>
    obtain ⟨first', rest', rfl, hfirst', hrest'⟩ := hb.exists_cut hsep
    obtain ⟨pieces', hpieces, hall⟩ := ih hrest'
    exact ⟨first' :: pieces', .more (mt (hfirst'.mem_iff hsep).mpr hfirst) hpieces,
      .cons hfirst' hall⟩

/-! ### The grammar -/

theorem SignedNumeral.respell {n : Int} (h : SignedNumeral a n) (hb : SameLetters a b) :
    SignedNumeral b n := by
  have hle : ∀ c ∈ a, c ≤ '9' := by
    intro c hc
    rcases h.isDigit_or_sign.2 c hc with ⟨-, h9⟩ | rfl | rfl
    · exact h9
    · decide
    · decide
  rwa [hb.eq_of_le hle]

namespace Field

variable {f : Field} {m n : Int} {S : Set Int}

theorem Spells.respell (h : f.Spells a n) (hb : SameLetters a b) : f.Spells b n := by
  cases h with
  | name hname =>
    rw [hb] at hname
    exact .name hname
  | integer hinteger => exact .integer (hinteger.respell hb)

theorem Ends.respell (h : f.Ends a m n) (hb : SameLetters a b) : f.Ends b m n := by
  cases h with
  | dash hfirst hlast hm hn =>
    obtain ⟨first', last', rfl, hfirst', hlast'⟩ := hb.exists_cut (by decide)
    exact .dash (mt (hfirst'.mem_iff (by decide)).mpr hfirst)
      (mt (hlast'.mem_iff (by decide)).mpr hlast) (hm.respell hfirst') (hn.respell hlast')

/-- A bare star is one in whichever case it is written. -/
theorem star_respell (hb : SameLetters ['*'] b) : b = ['*'] := by
  refine hb.eq_of_le fun c hc => ?_
  rw [List.mem_singleton.mp hc]
  decide

theorem Base.respell (h : f.Base a m n) (hb : SameLetters a b) : f.Base b m n := by
  cases h with
  | star =>
    rw [star_respell hb]
    exact .star
  | start hdash hm => exact .start (mt (hb.mem_iff (by decide)).mpr hdash) (hm.respell hb)
  | ends hends => exact .ends (hends.respell hb)

theorem Token.respell (h : f.Token a S) (hb : SameLetters a b) : f.Token b S := by
  cases h with
  | value hdash hn hleast hgreatest =>
    exact .value (mt (hb.mem_iff (by decide)).mpr hdash) (hn.respell hb) hleast hgreatest
  | range hends hle => exact .range (hends.respell hb) hle
  | stride hbase hstep hpos =>
    obtain ⟨base', step', rfl, hbase', hstep'⟩ := hb.exists_cut (by decide)
    exact .stride (hbase.respell hbase') (hstep.respell hstep') hpos

theorem tokens_respell {tokens tokens' : List (List Char)} {sets : List (Set Int)}
    (h : List.Forall₂ f.Token tokens sets) (hb : List.Forall₂ SameLetters tokens tokens') :
    List.Forall₂ f.Token tokens' sets := by
  induction h generalizing tokens' with
  | nil =>
    cases hb
    exact .nil
  | cons htoken _ ih =>
    cases hb with
    | cons hfirst hrest => exact .cons (htoken.respell hfirst) (ih hrest)

theorem Describes.respell (h : f.Describes a S) (hb : SameLetters a b) : f.Describes b S := by
  cases h with
  | star =>
    rw [star_respell hb]
    exact .star
  | terms hpieces htokens hsome =>
    obtain ⟨pieces', hpieces', hall⟩ := hpieces.respell (by decide) hb
    exact .terms hpieces' (tokens_respell htokens hall) hsome

/-- **Words with the same letters describe the same.** -/
theorem describes_congr (hb : SameLetters a b) : f.Describes a S ↔ f.Describes b S :=
  ⟨fun h => h.respell hb, fun h => h.respell hb.symm⟩

end Field

namespace FieldSet

variable {f : Field} {s t : FieldSet}

theorem field_of_read (h : read f a = .ok s) : s.field = f :=
  read_keeps (p := fun set => set.field = f) (fun hs hu => (field_insert? hu).1.trans hs) rfl h

/-- Sets of one field with the same bounds and the same members are one. -/
theorem eq_of_mem_iff (hfield : s.field = t.field) (hleast : s.least = t.least)
    (hgreatest : s.greatest = t.greatest) (h : ∀ n, n ∈ s ↔ n ∈ t) : s = t := by
  have hbits : s.bits = t.bits :=
    BitVec.eq_of_getLsbD_eq fun i _ => Bool.eq_iff_iff.mpr (h i)
  cases s
  cases t
  simp_all

/-- **Words with the same letters are read as the same set.** -/
theorem read_congr (h : read f a = .ok s) (hb : SameLetters a b) : read f b = .ok s := by
  have hdescribes : f.Describes a s.numbers := Field.describes_iff.mpr ⟨s, h, rfl⟩
  obtain ⟨t, ht, hnumbers⟩ := Field.describes_iff.mp (hdescribes.respell hb)
  have hs := fresh_of_read h
  have ht' := fresh_of_read ht
  have heq : s = t := by
    refine eq_of_mem_iff ((field_of_read h).trans (field_of_read ht).symm)
      (hs.least_eq.trans ht'.least_eq.symm) (hs.greatest_eq.trans ht'.greatest_eq.symm) ?_
    intro n
    rw [← mem_numbers, hnumbers, mem_numbers]
  rw [ht, heq]

end FieldSet

/-! ### Trimming twice -/

/-- What is left of a text begins with no blank and ends with none. -/
theorem trim_trim (text : List Char) : trim (trim text) = trim text := by
  have htrim : ∀ text, trim text = (text.dropWhile isBlank).rdropWhile isBlank := fun _ => rfl
  have hfront : (trim text).dropWhile isBlank = trim text := by
    obtain ⟨rest, hrest⟩ := List.rdropWhile_prefix isBlank (l := text.dropWhile isBlank)
    rw [← htrim] at hrest
    cases hfirst : trim text with
    | nil => rfl
    | cons c left =>
      have hhead := List.head?_dropWhile_not isBlank text
      rw [← hrest, hfirst] at hhead
      exact List.dropWhile_cons_of_neg (by simpa using hhead)
  rw [htrim (trim text), hfront, htrim text, List.rdropWhile_idempotent]

/-- A text is blank exactly if it falls into no words. -/
theorem FallsInto.isBlank_iff {ws : List (List Char)} (h : FallsInto text ws) :
    (∀ c ∈ text, isBlank c = true) ↔ ws = [] := by
  refine ⟨fun hblank => ?_, h.isBlank_of_nil⟩
  rw [← fallsInto_iff.mp h, ← words_trim, trim_eq_nil_iff.mpr hblank]
  rfl

/-! ### Schedules -/

/-- A reason is given for the same kind of failure: it is the same, or a field is refused in both
cases, in words that quote the field. -/
inductive ExpressionError.SameKind : ExpressionError → ExpressionError → Prop
  | same (e : ExpressionError) : SameKind e e
  | field (reason reason' : FieldError) : SameKind (.field reason) (.field reason')

namespace Schedule

variable {s t : Schedule} {expression : String}

/-- The blanks at the ends of an expression make no difference. -/
theorem parse_trim (expression : String) :
    parse (String.ofList (trim expression.toList)) = parse expression := by
  unfold parse
  rw [String.toList_ofList, trim_trim]

theorem text_of_parse (h : parse expression = .ok s) :
    s.text = String.ofList (trim expression.toList) := by
  obtain ⟨_, -, hfields⟩ := exists_fields_of_parse h
  obtain ⟨_, _, -, -, -, rfl⟩ := ofFields_eq_ok.mp hfields
  rfl

/-- **What a schedule is stored as is read as the same schedule.** -/
theorem parse_toString (h : parse expression = .ok s) : parse (toString s) = .ok s := by
  rw [show toString s = s.text from rfl, text_of_parse h, parse_trim, h]

/-- The schedules are the same but for their texts. -/
structure Respells (s t : Schedule) : Prop where
  minutes : s.minutes = t.minutes
  hours : s.hours = t.hours
  days : s.days = t.days
  months : s.months = t.months
  weekdays : s.weekdays = t.weekdays
  anyDay : s.anyDay = t.anyDay
  anyWeekday : s.anyWeekday = t.anyWeekday

namespace Respells

variable (h : s.Respells t) (direction : Direction)
include h

theorem eitherDay_eq : s.eitherDay = t.eitherDay := by
  rw [eitherDay, eitherDay, h.anyDay, h.anyWeekday]

theorem admitsDay_eq : s.admitsDay = t.admitsDay := by
  funext day weekday length
  simp only [admitsDay, h.days, h.weekdays, h.anyDay, h.anyWeekday]

theorem admitsWall_eq (w : WallTime) : s.admitsWall w = t.admitsWall w := by
  simp only [admitsWall, admits, h.minutes, h.hours, h.months, h.admitsDay_eq]

theorem landingDay?_eq : s.landingDay? direction = t.landingDay? direction := by
  funext year month
  simp only [landingDay?, h.days, h.eitherDay_eq]

theorem monthBeyond_eq : s.monthBeyond direction = t.monthBeyond direction := by
  funext year month
  simp only [monthBeyond, h.months]

theorem enterDay_eq : s.enterDay direction = t.enterDay direction := by
  funext date
  simp only [enterDay, h.hours, h.minutes]

theorem enterMonth_eq (hops : Nat) (year : Int) (month : Nat) :
    s.enterMonth direction hops year month = t.enterMonth direction hops year month := by
  induction hops generalizing year month with
  | zero => rfl
  | succ hops ih =>
    simp only [enterMonth, h.monthBeyond_eq, h.landingDay?_eq, h.enterDay_eq, ih]

theorem leaveMonth_eq : s.leaveMonth direction = t.leaveMonth direction :=
  funext fun c => h.enterMonth_eq direction maxMonths c.year c.month

theorem leaveDay_eq : s.leaveDay direction = t.leaveDay direction := by
  funext c
  simp only [leaveDay, h.days, h.eitherDay_eq, h.enterDay_eq, h.leaveMonth_eq]

theorem moveHour_eq : s.moveHour direction = t.moveHour direction := by
  funext c target
  simp only [moveHour, h.hours, h.minutes, h.leaveDay_eq]

theorem moveMinute_eq : s.moveMinute direction = t.moveMinute direction := by
  funext c
  simp only [moveMinute, h.minutes, h.moveHour_eq]

theorem correct?_eq : s.correct? direction = t.correct? direction := by
  funext c
  simp only [correct?, h.minutes, h.hours, h.months, h.admitsDay_eq, h.leaveMonth_eq,
    h.leaveDay_eq, h.moveHour_eq, h.moveMinute_eq]

theorem seek_eq (corrections : Nat) (c : CivilMinute) :
    s.seek direction corrections c = t.seek direction corrections c := by
  induction corrections generalizing c with
  | zero => rfl
  | succ corrections ih => simp only [seek, h.correct?_eq, ih]

variable (z : Zone) (origin : Instant)

theorem firstPast_eq (attempts : Nat) (start : WallTime) :
    s.firstPast z direction origin attempts start =
      t.firstPast z direction origin attempts start := by
  induction attempts generalizing start with
  | zero => rfl
  | succ attempts ih => simp only [firstPast, h.seek_eq, ih]

/-- **The answer to a search is the same in whichever text the schedule was written.** -/
theorem occurrence_eq : s.occurrence z direction origin = t.occurrence z direction origin := by
  simp only [occurrence, h.firstPast_eq]

theorem isDue_eq : s.isDue z origin = t.isDue z origin := by
  simp only [isDue, h.admitsWall_eq]

end Respells

/-! ### Reading two spellings -/

variable {a b whole whole' : String} {text text' : Field → List Char}
  {ws ws' : List (List Char)}

/-- **Two readings come to the same**: to schedules that are the same but for their texts, or to
refusals of the same kind. -/
inductive SameReading :
    Except ExpressionError Schedule → Except ExpressionError Schedule → Prop
  | read {s t : Schedule} : s.Respells t → SameReading (.ok s) (.ok t)
  | refused {e e' : ExpressionError} : e.SameKind e' → SameReading (.error e) (.error e')

/-- Fields with the same letters come to the same. -/
theorem ofFields_sameReading (h : ∀ f, SameLetters (text f) (text' f)) :
    SameReading
      (ofFields whole (text .minute) (text .hour) (text .day) (text .month) (text .weekday))
      (ofFields whole' (text' .minute) (text' .hour) (text' .day) (text' .month)
        (text' .weekday)) := by
  have hstar : ∀ f, text f = ['*'] ↔ text' f = ['*'] := fun f => by
    constructor
    · intro hf
      exact Field.star_respell (hf ▸ h f)
    · intro hf
      exact Field.star_respell (hf ▸ (h f).symm)
  by_cases hall : ∀ f : Field, ∃ set, FieldSet.read f (text f) = .ok set
  · choose set hread using hall
    obtain ⟨weekdays, hfold⟩ := exists_foldSunday (FieldSet.fresh_of_read (hread .weekday))
    have hread' : ∀ f, FieldSet.read f (text' f) = .ok (set f) := fun f =>
      FieldSet.read_congr (hread f) (h f)
    rw [ofFields_of_read whole hread hfold, ofFields_of_read whole' hread' hfold]
    by_cases hfeasible : isFeasible (set .day) ((set .month).shiftDown 1) = true
    · rw [if_pos hfeasible, if_pos hfeasible]
      exact .read ⟨rfl, rfl, rfl, rfl, rfl, decide_eq_decide.mpr (hstar .day),
        decide_eq_decide.mpr (hstar .weekday)⟩
    · rw [if_neg hfeasible, if_neg hfeasible]
      exact .refused (.same _)
  · -- a field that cannot be read describes nothing, and neither does its other spelling
    obtain ⟨f, hf⟩ := not_forall.mp hall
    have hnone : ∀ S, ¬ f.Describes (text f) S := fun S hS => hf <| by
      obtain ⟨set, hset, -⟩ := Field.describes_iff.mp hS
      exact ⟨set, hset⟩
    obtain ⟨reason, hrefused⟩ := (ofFields_refused_iff whole).mpr ⟨f, hnone⟩
    obtain ⟨reason', hrefused'⟩ := (ofFields_refused_iff whole').mpr
      ⟨f, fun S => mt (Field.describes_congr (h f)).mpr (hnone S)⟩
    rw [hrefused, hrefused']
    exact .refused (.field reason reason')

/-- **Expressions whose words have the same letters come to the same.** -/
theorem parse_sameReading (ha : FallsInto a.toList ws) (hb : FallsInto b.toList ws')
    (h : List.Forall₂ SameLetters ws ws') : SameReading (parse a) (parse b) := by
  have hlength : ws.length = ws'.length := h.length_eq
  have hblank : (∀ c ∈ a.toList, isBlank c = true) ↔ ∀ c ∈ b.toList, isBlank c = true := by
    rw [ha.isBlank_iff, hb.isBlank_iff, ← List.length_eq_zero_iff, hlength,
      List.length_eq_zero_iff]
  rcases parse_outcome ha with ⟨hnone, hpa⟩ | ⟨hsome, hcount, hpa⟩ | ⟨-, text, rfl, hpa⟩
  · rw [hpa, parse_of_blank (hblank.mp hnone)]
    exact .refused (.same _)
  · rw [hpa, parse_of_length hb (mt hblank.mpr hsome) (hlength ▸ hcount), hlength]
    exact .refused (.same _)
  · have hfive : ws'.length = 5 := hlength.symm
    obtain ⟨text', rfl⟩ := exists_texts hfive
    rw [List.forall₂_map_left_iff, List.forall₂_map_right_iff, List.forall₂_same] at h
    rw [hpa, parse_of_fields hb]
    exact ofFields_sameReading fun f => h f (by cases f <;> decide)

/-- **An expression is stored faithfully, and its spelling makes no difference.**  A schedule keeps
the expression that it is read from but for the blanks at its ends, which is what it is shown and
stored as, and that is read as the same schedule again.  Expressions that fall into the same words
but for the case of their letters, whatever blanks stand between and around them, are refused for
the same kind of reason or are both read.  Then the five sets and the bare stars are the same, and
so is the answer whenever one asks whether the schedule is due, and to every search. -/
theorem parse_faithful :
    (∀ expression s, parse expression = .ok s →
      (s.text = String.ofList (trim expression.toList) ∧ toString s = s.text) ∧
      parse (toString s) = .ok s) ∧
    ∀ (a b : String) (ws ws' : List (List Char)),
      FallsInto a.toList ws → FallsInto b.toList ws' → List.Forall₂ SameLetters ws ws' →
      (∃ e e', parse a = .error e ∧ parse b = .error e' ∧ e.SameKind e') ∨
      ∃ s t, parse a = .ok s ∧ parse b = .ok t ∧ s.Respells t ∧
        (∀ w : WallTime, s.admitsWall w = t.admitsWall w) ∧
        (∀ (z : Zone) (i : Instant), s.isDue z i = t.isDue z i) ∧
        ∀ (z : Zone) (direction : Direction) (origin : Instant),
          s.occurrence z direction origin = t.occurrence z direction origin := by
  refine ⟨fun expression s hs => ⟨⟨text_of_parse hs, rfl⟩, parse_toString hs⟩, ?_⟩
  intro a b ws ws' ha hb h
  have hsame := parse_sameReading ha hb h
  revert hsame
  generalize parse a = x
  generalize parse b = y
  rintro (hst | hkind)
  · exact Or.inr ⟨_, _, rfl, rfl, hst, hst.admitsWall_eq, hst.isDue_eq,
      fun z direction origin => hst.occurrence_eq direction z origin⟩
  · exact Or.inl ⟨_, _, rfl, rfl, hkind⟩

/-- Nine on Mondays, with a tab before and a wide blank behind it and in capitals, and with a line
break in it and in small letters. -/
theorem parse_faithful_monday : ∃ s t, parse "\t0 9  * * MON\u3000" = .ok s ∧
    parse "0\u00A09 * *\nmon" = .ok t ∧
    (toString s = "0 9  * * MON" ∧ parse (toString s) = .ok s) ∧ s.Respells t ∧
    ∀ (z : Zone) (origin : Instant), s.next z origin = t.next z origin := by
  obtain ⟨s, hs, htext⟩ := exists_of_parse "\t0 9  * * MON\u3000"
    (fun s => s.text = "0 9  * * MON") (by decide)
  have ha : FallsInto "\t0 9  * * MON\u3000".toList
      [['0'], ['9'], ['*'], ['*'], ['M', 'O', 'N']] := fallsInto_iff.mpr (by decide)
  have hb : FallsInto "0\u00A09 * *\nmon".toList
      [['0'], ['9'], ['*'], ['*'], ['m', 'o', 'n']] := fallsInto_iff.mpr (by decide)
  have hsame : List.Forall₂ SameLetters [['0'], ['9'], ['*'], ['*'], ['M', 'O', 'N']]
      [['0'], ['9'], ['*'], ['*'], ['m', 'o', 'n']] := by
    decide
  obtain ⟨⟨-, hshown⟩, hagain⟩ := parse_faithful.1 _ _ hs
  rcases parse_faithful.2 _ _ _ _ ha hb hsame with
    ⟨e, _, he, -⟩ | ⟨s', t, hs', ht, hrespells, -, -, hsearch⟩
  · rw [hs] at he
    cases he
  · obtain rfl : s = s' := Except.ok.inj (hs.symm.trans hs')
    exact ⟨s, t, hs, ht, ⟨hshown.trans htext, hagain⟩, hrespells,
      fun z origin => hsearch z .forward origin⟩

end Schedule

end Crontab
