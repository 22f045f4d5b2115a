import Crontab.Proofs.Spelling
import Crontab.Proofs.Valid
import Crontab.Proofs.Words
import Mathlib.Data.Set.Basic

/-! # The grammar of a field

The grammar says what a field stands for without reading it: `Field.Token` gives the numbers of
one term and `Field.Describes` those of a whole field.  A dash makes a term a range, and so a
single number is one that is spelled without.

**Reading a field finds exactly what it describes** (`Field.describes_iff`).  The proof goes up
the grammar: the two ends of a range (`Field.readEnds_eq_ok`), the base of a stride
(`Field.readBase_eq_ok`), each of the three forms of a term and then any term
(`Field.token_iff`), and last the set that the terms of a field make up
(`FieldSet.exists_of_terms`).
-/

namespace Crontab

open Outcome

namespace Field

/-! ### Terms and fields -/

/-- Two numbers with a dash between them. -/
inductive Ends (f : Field) : (text : List Char) → (first last : Int) → Prop
  | dash {first last : List Char} {a b : Int} : '-' ∉ first → '-' ∉ last →
      f.Spells first a → f.Spells last b → Ends f (first ++ '-' :: last) a b

/-- What stands before the slash of a stride, and the numbers between which the stride goes. -/
inductive Base (f : Field) : (text : List Char) → (first last : Int) → Prop
  /-- A star goes through the whole field. -/
  | star : Base f ['*'] f.least f.greatest
  /-- A number goes as far as the field does. -/
  | start {text : List Char} {a : Int} : '-' ∉ text → f.Spells text a → Base f text a f.greatest
  /-- A range goes from one of its ends to the other, and nowhere if they are in the wrong order. -/
  | ends {text : List Char} {a b : Int} : f.Ends text a b → Base f text a b

/-- **What a term of a field stands for.** -/
inductive Token (f : Field) : (text : List Char) → (numbers : Set Int) → Prop
  /-- A number within the bounds stands for itself. -/
  | value {text : List Char} {n : Int} : '-' ∉ text → f.Spells text n →
      f.least ≤ n → n ≤ f.greatest → Token f text {n}
  /-- A range stands for the numbers from one end to the other. -/
  | range {text : List Char} {a b : Int} : f.Ends text a b → a ≤ b →
      Token f text {v | a ≤ v ∧ v ≤ b}
  /-- A stride stands for the numbers that it steps on. -/
  | stride {base step : List Char} {a b n : Int} : f.Base base a b → SignedNumeral step n → 0 < n →
      Token f (base ++ '/' :: step) {v | v ≤ b ∧ ∃ k : Nat, v = a + k * n}

/-- All the numbers within the bounds of a field. -/
def bounds (f : Field) : Set Int := {v | f.least ≤ v ∧ v ≤ f.greatest}

/-- What sets of numbers have together within the bounds of a field. -/
def within (f : Field) (sets : List (Set Int)) : Set Int := {v | v ∈ f.bounds ∧ ∃ S ∈ sets, v ∈ S}

/-- **What a field stands for.** -/
inductive Describes (f : Field) : (text : List Char) → (numbers : Set Int) → Prop
  /-- A bare star stands for all that is within the bounds. -/
  | star : Describes f ['*'] f.bounds
  /-- Terms stand for what they have together within the bounds, which has to be something. -/
  | terms {text : List Char} {tokens : List (List Char)} {sets : List (Set Int)} :
      Separated ',' text tokens → List.Forall₂ f.Token tokens sets → (f.within sets).Nonempty →
      Describes f text (f.within sets)

variable {f : Field} {text : List Char} {c : Char} {a b : Int} {S : Set Int} {t : Term}

/-! ### Reading a term -/

theorem Ends.dash_mem (h : f.Ends text a b) : '-' ∈ text := by
  cases h
  simp

theorem Ends.le_first (h : f.Ends text a b) : -2147483648 ≤ a := by
  cases h with
  | dash _ _ hfirst _ => exact hfirst.least_le

theorem Ends.not_mem (h : f.Ends text a b) (hc : c ∈ [',', '/', '*']) : c ∉ text := by
  have hdash : c ≠ '-' := by
    rintro rfl
    exact absurd hc (by decide)
  cases h with
  | dash _ _ hfirst hlast =>
    rw [List.mem_append, List.mem_cons]
    rintro (hmem | rfl | hmem)
    · exact hfirst.not_mem hc hmem
    · exact hdash rfl
    · exact hlast.not_mem hc hmem

theorem readEnds_eq_ok : Term.readEnds f text = .ok (a, b) ↔ f.Ends text a b := by
  unfold Term.readEnds
  constructor
  · intro h
    split at h
    · rename_i first last hsplit
      obtain ⟨a', hfirst, h⟩ := bind_eq_ok.mp h
      obtain ⟨b', hlast, h⟩ := bind_eq_ok.mp h
      cases h
      rcases separated_iff.mpr hsplit with _ | ⟨hf, hl | ⟨_, ⟨⟩⟩⟩
      exact .dash hf hl (spells_iff.mpr hfirst) (spells_iff.mpr hlast)
    · cases h
  · rintro ⟨hf, hl, hfirst, hlast⟩
    rw [separated_iff.mp (.more hf (.one hl))]
    exact bind_eq_ok.mpr ⟨a, spells_iff.mp hfirst, bind_eq_ok.mpr ⟨b, spells_iff.mp hlast, rfl⟩⟩

theorem readBase_eq_ok : Term.readBase f text = .ok (a, b) ↔ f.Base text a b := by
  unfold Term.readBase
  constructor
  · intro h
    split at h
    · rename_i hstar
      cases h
      rw [hstar]
      exact .star
    · split at h
      · exact .ends (readEnds_eq_ok.mp h)
      · rename_i hdash
        obtain ⟨a', ha, h⟩ := bind_eq_ok.mp h
        cases h
        exact .start hdash (spells_iff.mpr ha)
  · rintro (_ | ⟨hdash, ha⟩ | hends)
    · rfl
    · have hstar : text ≠ ['*'] := fun he => ha.not_mem (c := '*') (by simp) (by simp [he])
      rw [if_neg hstar, if_neg hdash]
      exact bind_eq_ok.mpr ⟨a, spells_iff.mp ha, rfl⟩
    · have hstar : text ≠ ['*'] := fun he => hends.not_mem (c := '*') (by simp) (by simp [he])
      rw [if_neg hstar, if_pos hends.dash_mem]
      exact readEnds_eq_ok.mpr hends

theorem Base.le_first (h : f.Base text a b) : -2147483648 ≤ a := by
  cases h with
  | star => exact Int.le_trans (by decide) (Int.natCast_nonneg _)
  | start _ ha => exact ha.least_le
  | ends hends => exact hends.le_first

theorem Base.slash_not_mem (h : f.Base text a b) : '/' ∉ text := by
  cases h with
  | star => decide
  | start _ ha => exact ha.not_mem (by decide)
  | ends hends => exact hends.not_mem (by decide)

theorem readSingle_eq_ok : Term.readSingle f text = .ok t ↔
    ∃ n, f.Spells text n ∧ (f.least ≤ n ∧ n ≤ f.greatest) ∧ t = .value n := by
  rw [Term.readSingle, bind_eq_ok]
  refine exists_congr fun n => ?_
  rw [spells_iff]
  split <;> simp_all [eq_comm]

theorem readRange_eq_ok : Term.readRange f text = .ok t ↔
    ∃ a b, f.Ends text a b ∧ a ≤ b ∧ t = .range a b := by
  rw [Term.readRange, bind_eq_ok, Prod.exists]
  refine exists_congr fun a => exists_congr fun b => ?_
  rw [readEnds_eq_ok]
  dsimp only
  split <;> grind

theorem stepOf?_eq_some {n : Int} {step : Step} : Step.of? n = some step ↔ (step : Int) = n := by
  unfold Step.of?
  split
  · simp [Subtype.ext_iff, eq_comm]
  · have := step.property
    simp only [reduceCtorEq, false_iff]
    omega

theorem readStride_eq_ok {base step : List Char} : Term.readStride f base step = .ok t ↔
    ∃ a b n, f.Base base a b ∧ SignedNumeral step (n : Step) ∧ t = .stride a b n := by
  have hstep : ∀ n : Step, SignedNumeral step n ↔
      (readInteger? step).bind Step.of? = some n := fun n => by
    simp [Option.bind_eq_some_iff, stepOf?_eq_some, signedNumeral_iff]
  simp only [hstep]
  unfold Term.readStride
  constructor
  · intro h
    split at h
    · cases h
    · rename_i n hn
      obtain ⟨⟨a, b⟩, hbase, h⟩ := bind_eq_ok.mp h
      cases h
      exact ⟨a, b, n, readBase_eq_ok.mp hbase, hn, rfl⟩
  · rintro ⟨a, b, n, hbase, hn, rfl⟩
    rw [hn]
    exact bind_eq_ok.mpr ⟨(a, b), readBase_eq_ok.mpr hbase, rfl⟩

/-- The slash of a stride is the first one in the text. -/
theorem read_of_slash {fieldText base step : List Char} (h : '/' ∉ base) :
    Term.read f fieldText (base ++ '/' :: step) = Term.readStride f base step := by
  have hbase : ∀ c ∈ base, decide (c ≠ '/') = true := fun c hc =>
    decide_eq_true fun he => h (he ▸ hc)
  rw [Term.read, if_neg (by simp), if_pos (by simp), List.takeWhile_append_of_pos hbase,
    List.dropWhile_append_of_pos hbase]
  simp

/-- A term that can be read stands for its numbers and can be filled in. -/
theorem token_of_read {fieldText : List Char} (h : Term.read f fieldText text = .ok t) :
    f.Token text t.numbers ∧ t.Fits f := by
  by_cases hslash : '/' ∈ text
  · obtain ⟨base, step, rfl, hbase⟩ := List.eq_append_cons_of_mem hslash
    rw [read_of_slash hbase] at h
    obtain ⟨a, b, n, hab, hstep, rfl⟩ := readStride_eq_ok.mp h
    exact ⟨.stride hab hstep n.property, hab.le_first⟩
  · unfold Term.read at h
    rw [if_neg hslash] at h
    split at h
    · cases h
    · split at h
      · obtain ⟨a, b, hends, hle, rfl⟩ := readRange_eq_ok.mp h
        exact ⟨.range hends hle, hends.le_first⟩
      · rename_i hdash
        obtain ⟨n, hn, ⟨hleast, hgreatest⟩, rfl⟩ := readSingle_eq_ok.mp h
        exact ⟨.value hdash hn hleast hgreatest, hleast, hgreatest⟩

/-- **Reading a term finds exactly what it stands for.** -/
theorem token_iff (fieldText : List Char) :
    f.Token text S ↔ ∃ t, Term.read f fieldText text = .ok t ∧ S = t.numbers := by
  constructor
  · intro h
    cases h with
    | value hdash hn hleast hgreatest =>
      refine ⟨.value _, ?_, rfl⟩
      rw [Term.read, if_neg hn.ne_nil, if_neg (hn.not_mem (by decide)), if_neg hdash]
      exact readSingle_eq_ok.mpr ⟨_, hn, ⟨hleast, hgreatest⟩, rfl⟩
    | range hends hle =>
      refine ⟨.range _ _, ?_, rfl⟩
      rw [Term.read, if_neg (List.ne_nil_of_mem hends.dash_mem),
        if_neg (hends.not_mem (by decide)), if_pos hends.dash_mem]
      exact readRange_eq_ok.mpr ⟨_, _, hends, hle, rfl⟩
    | @stride _ _ _ _ n hbase hstep hpos =>
      refine ⟨.stride _ _ ⟨n, hpos⟩, ?_, rfl⟩
      rw [read_of_slash hbase.slash_not_mem]
      exact readStride_eq_ok.mpr ⟨_, _, _, hbase, hstep, rfl⟩
  · rintro ⟨t, h, rfl⟩
    exact (token_of_read h).1

/-! ### Reading a field -/

/-- Terms stand for what the terms that they are read as stand for. -/
theorem tokens_iff (fieldText : List Char) {tokens : List (List Char)} {sets : List (Set Int)} :
    List.Forall₂ f.Token tokens sets ↔ ∃ terms, tokens.mapM (Term.read f fieldText) = .ok terms ∧
      sets = terms.map Term.numbers := by
  simp only [mapM_eq_ok]
  constructor
  · intro h
    induction h with
    | nil => exact ⟨[], .nil, rfl⟩
    | cons htoken _ ih =>
      obtain ⟨t, ht, rfl⟩ := (token_iff fieldText).mp htoken
      obtain ⟨terms, hterms, rfl⟩ := ih
      exact ⟨t :: terms, .cons ht hterms, rfl⟩
  · rintro ⟨terms, h, rfl⟩
    induction h with
    | nil => exact .nil
    | cons ht _ ih => exact .cons (token_of_read ht).1 ih

/-- Neither nothing nor a bare star is a term. -/
theorem Token.ne (h : f.Token text S) : text ≠ [] ∧ text ≠ ['*'] := by
  obtain ⟨t, ht, -⟩ := (token_iff []).mp h
  constructor
  · rintro rfl
    cases ht
  · rintro rfl
    cases f <;> cases ht

theorem ne_of_tokens {tokens : List (List Char)} {sets : List (Set Int)}
    (h : Separated ',' text tokens) (htokens : List.Forall₂ f.Token tokens sets) :
    text ≠ [] ∧ text ≠ ['*'] := by
  cases h with
  | one _ =>
    cases htokens with
    | cons htoken _ => exact htoken.ne
  | @more first rest _ _ _ =>
    have hcomma : ',' ∈ first ++ ',' :: rest := by simp
    constructor
    · exact List.ne_nil_of_mem hcomma
    · intro hstar
      rw [hstar] at hcomma
      exact absurd hcomma (by decide)

end Field

namespace FieldSet

variable {f : Field} {s : FieldSet}

/-- The members, as integers. -/
def numbers (s : FieldSet) : Set Int := {v | ∃ n : Nat, n ∈ s ∧ v = n}

@[simp] theorem mem_numbers {n : Nat} : (n : Int) ∈ s.numbers ↔ n ∈ s := by
  constructor
  · rintro ⟨m, hm, he⟩
    rwa [Int.ofNat.inj he]
  · exact fun hn => ⟨n, hn, rfl⟩

/-- A set whose members are the numbers with a property within the bounds of a field. -/
theorem numbers_eq {p : Int → Prop}
    (h : ∀ n : Nat, n ∈ s ↔ (f.least ≤ n ∧ n ≤ f.greatest) ∧ p n) :
    s.numbers = {v | v ∈ f.bounds ∧ p v} := by
  ext v
  constructor
  · rintro ⟨n, hn, rfl⟩
    obtain ⟨⟨hleast, hgreatest⟩, hp⟩ := (h n).mp hn
    exact ⟨⟨by omega, by omega⟩, hp⟩
  · rintro ⟨⟨hleast, hgreatest⟩, hp⟩
    obtain ⟨n, rfl⟩ := Int.eq_ofNat_of_zero_le (Int.le_trans (Int.natCast_nonneg _) hleast)
    exact ⟨n, (h n).mpr ⟨⟨by omega, by omega⟩, hp⟩, rfl⟩

theorem exists_full (f : Field) : ∃ set, full f = .ok set :=
  exists_insertAll? fun n hn => by
    have := List.mem_range'_1.mp hn
    exact ⟨by simp only [empty]; omega, by simp only [empty]; omega⟩

theorem numbers_full {set : FieldSet} (h : full f = .ok set) :
    set.numbers = f.bounds := by
  rw [numbers_eq (p := fun _ => True) fun n => by rw [mem_full h, and_true]]
  exact Set.ext fun v => iff_of_eq (and_true _)

/-- **Terms that can be read make up a set**, with the numbers that they stand for together. -/
theorem exists_of_terms {fieldText : List Char} {tokens : List (List Char)} {terms : List Term}
    (h : tokens.mapM (Term.read f fieldText) = .ok terms) :
    ∃ set, terms.foldlM insertTerm? (empty f) = .ok set ∧
      set.numbers = f.within (terms.map Term.numbers) := by
  have hfits : ∀ t ∈ terms, t.Fits f := by
    replace h := mapM_eq_ok.mp h
    induction h with
    | nil => simp
    | cons ht _ ih => exact List.forall_mem_cons.mpr ⟨(Field.token_of_read ht).2, ih⟩
  obtain ⟨set, hset, hgains⟩ := exists_insertTerms? (s := empty f) ⟨rfl, rfl⟩ hfits
  refine ⟨set, hset, ?_⟩
  rw [numbers_eq fun n => (hgains.mem n).trans (or_iff_right (not_mem_empty f n))]
  simp [Field.within]

theorem isEmpty_iff_numbers : s.isEmpty = true ↔ s.numbers = ∅ := by
  rw [isEmpty_iff, Set.eq_empty_iff_forall_notMem]
  constructor
  · rintro h v ⟨n, hn, -⟩
    exact h n hn
  · intro h n hn
    exact h n (mem_numbers.mpr hn)

end FieldSet

namespace Field

variable {f : Field} {text : List Char} {S : Set Int}

/-- **Reading a field finds exactly what it describes.** -/
theorem describes_iff :
    f.Describes text S ↔ ∃ set, FieldSet.read f text = .ok set ∧ S = set.numbers := by
  constructor
  · intro h
    cases h with
    | star =>
      obtain ⟨set, hset⟩ := FieldSet.exists_full f
      exact ⟨set, hset, (FieldSet.numbers_full hset).symm⟩
    | terms hpieces htokens hsome =>
      obtain ⟨terms, hterms, rfl⟩ := (tokens_iff text).mp htokens
      obtain ⟨set, hset, hnumbers⟩ := FieldSet.exists_of_terms hterms
      rw [← hnumbers] at hsome ⊢
      refine ⟨set, ?_, rfl⟩
      have hne := ne_of_tokens hpieces htokens
      rw [FieldSet.read, if_neg hne.1, if_neg hne.2, separated_iff.mp hpieces]
      refine bind_eq_ok.mpr ⟨set, foldlM_bind_eq_ok.mpr ⟨terms, hterms, hset⟩, if_neg ?_⟩
      rw [FieldSet.isEmpty_iff_numbers]
      exact hsome.ne_empty
  · rintro ⟨set, h, rfl⟩
    unfold FieldSet.read at h
    split at h
    · cases h
    · split at h
      · rename_i hstar
        rw [hstar, FieldSet.numbers_full h]
        exact .star
      · obtain ⟨set', hset, h⟩ := bind_eq_ok.mp h
        split at h
        · cases h
        · rename_i hsome
          cases h
          obtain ⟨terms, hterms, hfill⟩ := foldlM_bind_eq_ok.mp hset
          have htokens := (tokens_iff text).mpr ⟨terms, hterms, rfl⟩
          obtain ⟨set', hset', hnumbers⟩ := FieldSet.exists_of_terms hterms
          obtain rfl : set' = set := Except.ok.inj (hset'.symm.trans hfill)
          rw [FieldSet.isEmpty_iff_numbers, hnumbers] at hsome
          rw [hnumbers]
          exact .terms (separated_iff.mpr rfl) htokens (Set.nonempty_iff_ne_empty.mpr hsome)

end Field

end Crontab
