import Crontab.Text.Blank
import Mathlib.Data.List.TakeWhile

/-! # The words and the pieces of a text

`FallsInto` says without reading it how a text falls into words: blanks belong to none, and a word
is a run of other characters with a blank or the end of the text after it.  **Every text falls
into one list of words, the one that `words` reads off** (`fallsInto_iff`).  Everything about
`words` follows from how it goes on past a blank (`words_append_blank`).  In particular the blanks
that `trim` takes off make no difference (`words_trim`).

`Separated` says the same of the pieces between separators, which may be empty, and
`separated_iff` that they are what splitting finds.
-/

namespace Crontab

/-- **A text falls into words**: into its longest runs of characters that are not blank. -/
inductive FallsInto : (text : List Char) → (ws : List (List Char)) → Prop
  /-- There is no word in an empty text. -/
  | nil : FallsInto [] []
  /-- A blank at the front belongs to no word. -/
  | blank {c rest ws} : isBlank c = true → FallsInto rest ws → FallsInto (c :: rest) ws
  /-- A text without a blank is a word. -/
  | last {word} : word ≠ [] → (∀ c ∈ word, isBlank c = false) → FallsInto word [word]
  /-- A word at the front ends at a blank. -/
  | word {word c rest ws} : word ≠ [] → (∀ c ∈ word, isBlank c = false) → isBlank c = true →
      FallsInto rest ws → FallsInto (word ++ c :: rest) (word :: ws)

variable {c : Char} {text rest word : List Char} {ws : List (List Char)}

/-! ### Reading words off -/

/-- **Past a blank the words are those of what follows.** -/
theorem words_append_blank (hc : isBlank c = true) (text rest : List Char) :
    words (text ++ c :: rest) = words text ++ words rest := by
  unfold words
  rw [List.splitOnP_append_cons text rest hc, List.filter_append]

theorem words_cons_blank (hc : isBlank c = true) (rest : List Char) :
    words (c :: rest) = words rest :=
  words_append_blank hc [] rest

theorem words_eq_singleton (hne : word ≠ []) (h : ∀ c ∈ word, isBlank c = false) :
    words word = [word] := by
  unfold words
  rw [List.splitOnP_eq_singleton h]
  simpa using hne

theorem words_of_fallsInto (h : FallsInto text ws) : words text = ws := by
  induction h with
  | nil => rfl
  | blank hc _ ih => rw [words_cons_blank hc, ih]
  | last hne hword => exact words_eq_singleton hne hword
  | word hne hword hc _ ih => rw [words_append_blank hc, words_eq_singleton hne hword, ih]; rfl

/-- Before words, another character that is not blank begins a word or goes on the first. -/
theorem FallsInto.exists_cons (h : FallsInto rest ws) (hc : isBlank c = false) :
    ∃ ws, FallsInto (c :: rest) ws := by
  have hcons : ∀ {word : List Char}, (∀ d ∈ word, isBlank d = false) →
      ∀ d ∈ c :: word, isBlank d = false := fun hword => List.forall_mem_cons.mpr ⟨hc, hword⟩
  cases h with
  | nil => exact ⟨_, .last (List.cons_ne_nil c []) (hcons nofun)⟩
  | blank hd hrest => exact ⟨_, .word (List.cons_ne_nil c []) (hcons nofun) hd hrest⟩
  | last _ hword => exact ⟨_, .last (List.cons_ne_nil c _) (hcons hword)⟩
  | word _ hword hd hrest => exact ⟨_, .word (List.cons_ne_nil c _) (hcons hword) hd hrest⟩

theorem exists_fallsInto (text : List Char) : ∃ ws, FallsInto text ws := by
  induction text with
  | nil => exact ⟨[], .nil⟩
  | cons c rest ih =>
    obtain ⟨ws, hws⟩ := ih
    by_cases hc : isBlank c = true
    · exact ⟨ws, .blank hc hws⟩
    · exact hws.exists_cons (Bool.not_eq_true _ ▸ hc)

/-- **A text falls into the words that are read off it**, and into no others. -/
theorem fallsInto_iff : FallsInto text ws ↔ words text = ws := by
  refine ⟨words_of_fallsInto, ?_⟩
  rintro rfl
  obtain ⟨ws, hws⟩ := exists_fallsInto text
  rw [words_of_fallsInto hws]
  exact hws

/-! ### Trimming -/

theorem words_dropWhile (text : List Char) : words (text.dropWhile isBlank) = words text := by
  induction text with
  | nil => rfl
  | cons c rest ih =>
    by_cases hc : isBlank c = true
    · rw [List.dropWhile_cons_of_pos hc, ih, words_cons_blank hc]
    · rw [List.dropWhile_cons_of_neg hc]

theorem words_reverse_dropWhile (text : List Char) :
    words (text.dropWhile isBlank).reverse = words text.reverse := by
  induction text with
  | nil => rfl
  | cons c rest ih =>
    by_cases hc : isBlank c = true
    · rw [List.dropWhile_cons_of_pos hc, ih, List.reverse_cons, words_append_blank hc]
      exact (List.append_nil _).symm
    · rw [List.dropWhile_cons_of_neg hc]

/-- **The blanks at the ends of a text make no difference to its words.** -/
theorem words_trim (text : List Char) : words (trim text) = words text := by
  rw [trim, words_reverse_dropWhile, List.reverse_reverse, words_dropWhile]

/-- A text that falls into no words is blank. -/
theorem FallsInto.isBlank_of_nil (h : FallsInto text ws) (hws : ws = []) :
    ∀ c ∈ text, isBlank c = true := by
  induction h with
  | nil => nofun
  | blank hc _ ih => exact List.forall_mem_cons.mpr ⟨hc, ih hws⟩
  | last _ _ => cases hws
  | word _ _ _ _ _ => cases hws

/-- **Nothing is left of a text exactly if it is blank.** -/
theorem trim_eq_nil_iff : trim text = [] ↔ ∀ c ∈ text, isBlank c = true := by
  constructor
  · intro h
    have hnil : words text = [] := by rw [← words_trim, h]; rfl
    exact (fallsInto_iff.mpr hnil).isBlank_of_nil rfl
  · intro h
    rw [trim, List.dropWhile_eq_nil_iff.mpr h]
    rfl

/-! ### Pieces -/

/-- **A text is pieces with a separator between them**, and the separator is in none of them. -/
inductive Separated (sep : Char) : (text : List Char) → (pieces : List (List Char)) → Prop
  /-- A text without the separator is one piece. -/
  | one {text : List Char} : sep ∉ text → Separated sep text [text]
  /-- The first piece ends at the first separator. -/
  | more {first rest : List Char} {pieces} : sep ∉ first → Separated sep rest pieces →
      Separated sep (first ++ sep :: rest) (first :: pieces)

variable {sep : Char} {pieces : List (List Char)}

/-- **A text is the pieces that splitting finds**, and no others. -/
theorem separated_iff : Separated sep text pieces ↔ text.splitOn sep = pieces := by
  constructor
  · intro h
    induction h with
    | one hone => exact List.splitOn_eq_singleton hone
    | more hfirst _ ih => rw [List.splitOn_append_cons_self_of_not_mem hfirst, ih]
  · rintro rfl
    -- every piece but the last takes its separator off the text
    induction hlen : text.length using Nat.strong_induction_on generalizing text with
    | h k ih =>
      by_cases hmem : sep ∈ text
      · obtain ⟨first, rest, rfl, hfirst⟩ := List.eq_append_cons_of_mem hmem
        rw [List.splitOn_append_cons_self_of_not_mem hfirst]
        refine .more hfirst (ih rest.length ?_ rfl)
        rw [← hlen, List.length_append, List.length_cons]
        omega
      · rw [List.splitOn_eq_singleton hmem]
        exact .one hmem

end Crontab
