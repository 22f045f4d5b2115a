import Crontab.Field.Term
import Mathlib.Data.List.Induction
import Mathlib.Data.List.Nodup

/-! # How a number is spelled

A number in a field is an integer of 32 bits in decimal, with a sign or without
(`SignedNumeral`), or the name of a month or a weekday in whatever case (`Field.Spells`).  These
relations say what a text stands for and not how it is read.  **Reading finds exactly what they
say** (`signedNumeral_iff`, `Field.spells_iff`): an integer and a name are never the same text, so
it does not matter which of them is tried first.

No number is spelled with a comma, a slash or a star (`Field.Spells.not_mem`), the characters that
put the terms of a field together.
-/

namespace Crontab

/-! ### Integers -/

/-- The text writes a natural number in decimal digits, the highest first. -/
inductive Numeral : (text : List Char) → (n : Nat) → Prop
  /-- A digit writes its value. -/
  | digit {c} : '0' ≤ c → c ≤ '9' → Numeral [c] (c.toNat - '0'.toNat)
  /-- One digit more makes it ten times as much and the value of the digit. -/
  | append {text n c} : Numeral text n → '0' ≤ c → c ≤ '9' →
      Numeral (text ++ [c]) (10 * n + (c.toNat - '0'.toNat))

/-- The text writes an integer of 32 bits, with a sign or without. -/
inductive SignedNumeral : (text : List Char) → (n : Int) → Prop
  | unsigned {text} {n : Nat} : Numeral text n → n ≤ 2147483647 → SignedNumeral text n
  | plus {text} {n : Nat} : Numeral text n → n ≤ 2147483647 → SignedNumeral ('+' :: text) n
  | minus {text} {n : Nat} : Numeral text n → n ≤ 2147483648 → SignedNumeral ('-' :: text) (-n)

variable {text : List Char} {c : Char} {n k : Nat}

theorem Numeral.ne_nil (h : Numeral text n) : text ≠ [] := by
  cases h <;> simp

theorem Numeral.isDigit (h : Numeral text n) : ∀ c ∈ text, '0' ≤ c ∧ c ≤ '9' := by
  induction h with
  | digit h0 h9 => simpa using ⟨h0, h9⟩
  | append _ h0 h9 ih =>
    intro c hc
    rcases List.mem_append.mp hc with hc | hc
    · exact ih c hc
    · rw [List.mem_singleton.mp hc]
      exact ⟨h0, h9⟩

theorem digitValue?_eq_some {d : Nat} :
    digitValue? c = some d ↔ ('0' ≤ c ∧ c ≤ '9') ∧ c.toNat - '0'.toNat = d := by
  unfold digitValue?
  split
  · rename_i h
    simp [h]
  · rename_i h
    simp [h]

/-- The digits are read from the left, so the last comes in last. -/
theorem readDigits?_append (text : List Char) (c : Char) (k : Nat) :
    readDigits? k (text ++ [c]) =
      (readDigits? k text).bind fun n => (digitValue? c).map fun d => 10 * n + d := by
  induction text generalizing k with
  | nil => cases hd : digitValue? c <;> simp [readDigits?, hd]
  | cons b rest ih =>
    cases hd : digitValue? b with
    | none => simp [readDigits?, hd]
    | some d => simp [readDigits?, hd, ih]

theorem readNatural?_of_ne_nil (h : text ≠ []) : readNatural? text = readDigits? 0 text := by
  cases text with
  | nil => exact absurd rfl h
  | cons => rfl

/-- **Reading digits finds the number that they write.** -/
theorem numeral_iff : Numeral text n ↔ readNatural? text = some n := by
  constructor
  · intro h
    rw [readNatural?_of_ne_nil h.ne_nil]
    induction h with
    | digit h0 h9 => simp [readDigits?, digitValue?_eq_some.mpr ⟨⟨h0, h9⟩, rfl⟩]
    | append _ h0 h9 ih => simp [readDigits?_append, ih, digitValue?_eq_some.mpr ⟨⟨h0, h9⟩, rfl⟩]
  · induction text using List.reverseRecOn generalizing n with
    | nil => nofun
    | append_singleton text c ih =>
      intro h
      rw [readNatural?_of_ne_nil (by simp), readDigits?_append] at h
      obtain ⟨m, hm, h⟩ := Option.bind_eq_some_iff.mp h
      obtain ⟨d, hd, rfl⟩ := Option.map_eq_some_iff.mp h
      obtain ⟨⟨h0, h9⟩, rfl⟩ := digitValue?_eq_some.mp hd
      by_cases hnil : text = []
      · subst hnil
        cases hm
        simpa using Numeral.digit h0 h9
      · rw [← readNatural?_of_ne_nil hnil] at hm
        exact .append (ih hm) h0 h9

/-- A numeral has a digit, and but for it only digits and signs. -/
theorem SignedNumeral.isDigit_or_sign {i : Int} (h : SignedNumeral text i) :
    (∃ c ∈ text, '0' ≤ c ∧ c ≤ '9') ∧ ∀ c ∈ text, ('0' ≤ c ∧ c ≤ '9') ∨ c = '+' ∨ c = '-' := by
  have hdigits : ∀ {text n}, Numeral text n → (∃ c ∈ text, '0' ≤ c ∧ c ≤ '9') ∧
      ∀ c ∈ text, ('0' ≤ c ∧ c ≤ '9') ∨ c = '+' ∨ c = '-' := by
    intro text n h
    obtain ⟨c, hc⟩ := List.exists_mem_of_ne_nil text h.ne_nil
    exact ⟨⟨c, hc, h.isDigit c hc⟩, fun c hc => Or.inl (h.isDigit c hc)⟩
  cases h with
  | unsigned h => exact hdigits h
  | plus h =>
    obtain ⟨⟨c, hc, hcd⟩, hall⟩ := hdigits h
    exact ⟨⟨c, List.mem_cons_of_mem _ hc, hcd⟩, List.forall_mem_cons.mpr ⟨by simp, hall⟩⟩
  | minus h =>
    obtain ⟨⟨c, hc, hcd⟩, hall⟩ := hdigits h
    exact ⟨⟨c, List.mem_cons_of_mem _ hc, hcd⟩, List.forall_mem_cons.mpr ⟨by simp, hall⟩⟩

/-- **Reading an integer finds the one that the text writes.** -/
theorem signedNumeral_iff {i : Int} : SignedNumeral text i ↔ readInteger? text = some i := by
  constructor
  · intro h
    cases h with
    | unsigned h hle =>
      unfold readInteger?
      split
      · exact absurd (h.isDigit '-' List.mem_cons_self) (by decide)
      · exact absurd (h.isDigit '+' List.mem_cons_self) (by decide)
      · rw [numeral_iff.mp h]
        exact Option.filter_eq_some_iff.mpr ⟨rfl, by simp; omega⟩
    | plus h hle =>
      rw [readInteger?, numeral_iff.mp h]
      exact Option.filter_eq_some_iff.mpr ⟨rfl, by simp; omega⟩
    | minus h hle =>
      rw [readInteger?, numeral_iff.mp h]
      exact Option.filter_eq_some_iff.mpr ⟨rfl, by simp; omega⟩
  · intro h
    obtain ⟨hsigned, hbounds⟩ := Option.filter_eq_some_iff.mp h
    rw [decide_eq_true_eq] at hbounds
    split at hsigned
    all_goals
      obtain ⟨_, hmap, rfl⟩ := Option.map_eq_some_iff.mp hsigned
      obtain ⟨n, hn, hcast⟩ := Option.bind_eq_some_iff.mp hmap
      cases hcast
    · exact .minus (numeral_iff.mpr hn) (by omega)
    · exact .plus (numeral_iff.mpr hn) (by omega)
    · exact .unsigned (numeral_iff.mpr hn) (by omega)

/-! ### Names -/

/-- A character no later than the digits is the same in lower case. -/
theorem toLower_of_le (h : c ≤ '9') : c.toLower = c := by
  unfold Char.toLower
  rw [dif_neg]
  rintro ⟨hA, -⟩
  exact absurd (UInt32.le_trans hA h) (by decide)

namespace Field

/-- **The text spells a number in a field**: as the name of one, or as an integer. -/
inductive Spells (f : Field) : (text : List Char) → (n : Int) → Prop
  | name {text : List Char} {i : Nat} : f.names[i]? = some (text.map Char.toLower) →
      Spells f text (f.firstNamed + i : Nat)
  | integer {text : List Char} {n : Int} : SignedNumeral text n → Spells f text n

variable {f : Field}

/-- A name has small letters only, and is the name of one number. -/
theorem names_spec (f : Field) :
    (∀ name ∈ f.names, ∀ c ∈ name, 'a' ≤ c) ∧ f.names.Nodup := by
  have hall : f.names.all (fun name => name.all ('a' ≤ ·)) = true ∧ f.names.Nodup := by
    cases f <;> decide
  simpa only [List.all_eq_true, decide_eq_true_eq] using hall

theorem named?_eq_some : f.named? text = some n ↔
    ∃ i, f.names[i]? = some (text.map Char.toLower) ∧ n = f.firstNamed + i := by
  unfold named?
  constructor
  · intro h
    obtain ⟨i, hi, rfl⟩ := Option.map_eq_some_iff.mp h
    obtain ⟨hlt, hname, -⟩ := List.findIdx?_eq_some_iff_getElem.mp hi
    refine ⟨i, ?_, Nat.add_comm _ _⟩
    rw [List.getElem?_eq_getElem hlt, eq_of_beq hname]
  · rintro ⟨i, hi, rfl⟩
    obtain ⟨hlt, hname⟩ := List.getElem?_eq_some_iff.mp hi
    refine Option.map_eq_some_iff.mpr ⟨i, ?_, Nat.add_comm _ _⟩
    refine List.findIdx?_eq_some_iff_getElem.mpr ⟨hlt, beq_iff_eq.mpr hname, ?_⟩
    -- no earlier name is the same
    intro j hj
    rw [← hname, beq_iff_eq, List.Nodup.getElem_inj_iff (names_spec f).2]
    exact Nat.ne_of_lt hj

/-- What has a character no later than the digits is no name. -/
theorem named?_eq_none (h : ∃ c ∈ text, c ≤ '9') : f.named? text = none := by
  obtain ⟨c, hc, hle⟩ := h
  refine Option.eq_none_iff_forall_ne_some.mpr fun n hn => ?_
  obtain ⟨i, hi, -⟩ := named?_eq_some.mp hn
  have hname : text.map Char.toLower ∈ f.names := List.mem_of_getElem? hi
  have ha := (names_spec f).1 _ hname c (List.mem_map.mpr ⟨c, hc, toLower_of_le hle⟩)
  exact absurd (UInt32.le_trans ha hle) (by decide)

/-- **Reading a number finds the one that the text spells.** -/
theorem spells_iff {i : Int} : f.Spells text i ↔ Term.readValue f text = .ok i := by
  unfold Term.readValue
  constructor
  · rintro (hname | hinteger)
    · rw [named?_eq_some.mpr ⟨_, hname, rfl⟩]
    · obtain ⟨c, hc, -, h9⟩ := hinteger.isDigit_or_sign.1
      rw [named?_eq_none ⟨c, hc, h9⟩, signedNumeral_iff.mp hinteger]
  · intro h
    split at h
    · rename_i n hn
      cases h
      obtain ⟨i, hi, rfl⟩ := named?_eq_some.mp hn
      exact .name hi
    · split at h
      · rename_i hn
        cases h
        exact .integer (signedNumeral_iff.mpr hn)
      · cases h

theorem Spells.ne_nil {i : Int} (h : f.Spells text i) : text ≠ [] := by
  rintro rfl
  have hread := spells_iff.mp h
  cases f <;> cases hread

/-- Every number that is spelled is at least the least integer of 32 bits. -/
theorem Spells.least_le {i : Int} (h : f.Spells text i) : -2147483648 ≤ i := by
  cases h with
  | name => omega
  | integer hinteger => cases hinteger <;> omega

/-- No number is spelled with the characters that put terms together. -/
theorem Spells.not_mem {i : Int} (h : f.Spells text i) (hc : c ∈ [',', '/', '*']) : c ∉ text := by
  have hsep : c ≤ '9' ∧ ¬ (('0' ≤ c ∧ c ≤ '9') ∨ c = '+' ∨ c = '-') := by
    simp only [List.mem_cons, List.not_mem_nil, or_false] at hc
    rcases hc with rfl | rfl | rfl <;> decide
  intro hmem
  cases h with
  | name hname =>
    have := named?_eq_none (f := f) ⟨c, hmem, hsep.1⟩
    rw [named?_eq_some.mpr ⟨_, hname, rfl⟩] at this
    cases this
  | integer hinteger => exact hsep.2 (hinteger.isDigit_or_sign.2 c hmem)

end Field

end Crontab
