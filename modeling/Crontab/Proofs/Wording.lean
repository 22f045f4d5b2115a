import Crontab.Proofs.Shapes
import Crontab.Proofs.Telling

/-! # The wording of shapes

English words minutes, hours, days, weekdays and months alike: a few words and the number, so many
of a unit, a few words and the two ends, or a few words and a list (`ShapeWords`).  **The wording of
a shape tells it if it breaks off** (`ShapeWords.Clear.tells`), as soon as the words that come
first and the names that follow them do so (`ShapeWords.Clear`).
-/

namespace Crontab

/-- The words for the shapes of one field. -/
structure ShapeWords where
  /-- What comes before one number. -/
  one : String
  /-- What comes before a list. -/
  each : String
  /-- What comes before two ends. -/
  ends : String
  /-- What comes between two ends. -/
  upTo : String
  /-- What comes before a step. -/
  every : String
  /-- What comes after a step. -/
  unit : String
  /-- The name of a number. -/
  item : Nat → String
  /-- The name of a number that is an end. -/
  endItem : Nat → String

namespace ShapeWords

variable (w : ShapeWords)

/-- The wording of a shape. -/
def text : Shape → String
  | .single n => w.one ++ w.item n
  | .every step => w.every ++ toString step ++ w.unit
  | .span first last => w.ends ++ w.endItem first ++ w.upTo ++ w.endItem last
  | .each ns => w.each ++ english.listing (ns.map w.item)

/-- An end, and what comes between it and the other, are no item of a list. -/
def EndsApart (p : Nat → Prop) : Prop :=
  ∀ a n k k', p a → p n → FollowsItem k' →
    (w.endItem a).toList ++ (w.upTo.toList ++ k) ≠ (w.item n).toList ++ k'

/-- **Words that cannot be taken for others.** -/
structure Clear (p : Nat → Prop) : Prop where
  item : Tells (fun n => (w.item n).toList) p NoDigit
  starts : ∀ n, p n → StartsItem (w.item n).toList
  endItem : Tells (fun n => (w.endItem n).toList) p NoDigit
  upTo : ∀ k, NoDigit (w.upTo.toList ++ k)
  unit : ∀ k, NoDigit (w.unit.toList ++ k)
  one_each : Clash w.one.toList w.each.toList ∨ w.one = w.each
  ends_one : Clash w.ends.toList w.one.toList ∨ w.ends = w.one ∧ w.EndsApart p
  ends_each : Clash w.ends.toList w.each.toList ∨ w.ends = w.each ∧ w.EndsApart p
  every : ∀ lead ∈ [w.one, w.each, w.ends], Clash w.every.toList lead.toList

variable {w} {p : Nat → Prop} {a b n : Nat} {ns : List Nat} {k k' : List Char} {shape : Shape}

/-! ### What comes first -/

/-- What comes first in the wording of a shape that is no step. -/
theorem every_or_lead (w : ShapeWords) (shape : Shape) : (∃ step, shape = .every step) ∨
    ∃ lead ∈ [w.one, w.each, w.ends], lead.toList <+: (w.text shape).toList := by
  cases shape with
  | every step => exact Or.inl ⟨step, rfl⟩
  | single n => exact Or.inr ⟨w.one, by simp, by simp [text]⟩
  | span a b => exact Or.inr ⟨w.ends, by simp, by simp [text]⟩
  | each ns => exact Or.inr ⟨w.each, by simp, by simp [text]⟩

/-- What comes first in the wording of a shape. -/
theorem exists_lead (w : ShapeWords) (shape : Shape) :
    ∃ lead ∈ [w.one, w.each, w.ends, w.every], lead.toList <+: (w.text shape).toList := by
  rcases w.every_or_lead shape with ⟨step, rfl⟩ | ⟨lead, hlead, hprefix⟩
  · exact ⟨w.every, by simp, by simp [text]⟩
  · refine ⟨lead, ?_, hprefix⟩
    exact List.mem_append_left [w.every] hlead

/-- Words that come first tell the wording of a shape from other texts. -/
theorem text_ne_of_clash {a : List Char}
    (h : ∀ lead ∈ [w.one, w.each, w.ends, w.every], Clash lead.toList a) (shape : Shape)
    (k k' : List Char) : (w.text shape).toList ++ k ≠ a ++ k' := by
  obtain ⟨lead, hlead, rest, hrest⟩ := w.exists_lead shape
  rw [← hrest, List.append_assoc]
  exact (h lead hlead).ne _ _

/-- Behind a separator the wording of a shape breaks a list off. -/
theorem breaks_text {sep : String}
    (h : ∀ lead ∈ [w.one, w.each, w.ends, w.every], ∃ b ∈ breaks,
      b.toList <+: sep.toList ++ lead.toList) (shape : Shape) (k : List Char) :
    Breaks (sep.toList ++ ((w.text shape).toList ++ k)) := by
  obtain ⟨lead, hlead, rest, hrest⟩ := w.exists_lead shape
  obtain ⟨b, hb, hprefix⟩ := h lead hlead
  refine Or.inr ⟨b, hb, hprefix.trans ⟨rest ++ k, ?_⟩⟩
  rw [← hrest]
  simp only [List.append_assoc]

/-! ### The words of one field -/

theorem Clear.tells_listing (h : w.Clear p) :
    Tells (fun ns : List Nat => (english.listing (ns.map w.item)).toList)
      (fun ns => ns ≠ [] ∧ ∀ n ∈ ns, p n) Breaks :=
  Crontab.tells_listing h.item h.starts

/-- A step is not taken for numbers that are named. -/
theorem Clear.every_ne (h : w.Clear p) (step : Nat) (hshape : ∀ n, shape ≠ .every n)
    (k k' : List Char) :
    (w.text (.every step)).toList ++ k ≠ (w.text shape).toList ++ k' := by
  rcases w.every_or_lead shape with ⟨n, rfl⟩ | ⟨lead, hlead, rest, hrest⟩
  · exact absurd rfl (hshape n)
  · rw [← hrest]
    simp only [text, String.toList_append, List.append_assoc]
    exact (h.every lead hlead).ne _ _

/-- Two ends are not taken for one number. -/
theorem Clear.span_ne_single (h : w.Clear p) (ha : p a) (hn : p n) (hk' : Breaks k') :
    (w.text (.span a b)).toList ++ k ≠ (w.text (.single n)).toList ++ k' := by
  simp only [text, String.toList_append, List.append_assoc]
  rcases h.ends_one with hclash | ⟨hsame, hapart⟩
  · exact hclash.ne _ _
  · rw [hsame]
    exact fun heq => hapart a n _ k' ha hn hk'.followsItem (List.append_cancel_left heq)

/-- Two ends are not taken for a list. -/
theorem Clear.span_ne_each (h : w.Clear p) (ha : p a) (hns : (Shape.each ns).Of p)
    (hk' : Breaks k') :
    (w.text (.span a b)).toList ++ k ≠ (w.text (.each ns)).toList ++ k' := by
  simp only [text, String.toList_append, List.append_assoc]
  rcases h.ends_each with hclash | ⟨hsame, hapart⟩
  · exact hclash.ne _ _
  · match ns, hns with
    | n :: ns, ⟨_, hns⟩ =>
      rw [hsame, listing_toList, List.append_assoc]
      exact fun heq => hapart a n _ _ ha (hns n (by simp)) (followsItem_itemsAfter hk' ns)
        (List.append_cancel_left heq)

/-- One number is not taken for a list of two or more. -/
theorem Clear.single_ne_each (h : w.Clear p) (hn : p n) (hns : (Shape.each ns).Of p)
    (hk : Breaks k) (hk' : Breaks k') :
    (w.text (.single n)).toList ++ k ≠ (w.text (.each ns)).toList ++ k' := by
  simp only [text, String.toList_append, List.append_assoc]
  obtain ⟨hlen, hns⟩ := hns
  rcases h.one_each with hclash | hsame
  · exact hclash.ne _ _
  · rw [hsame]
    intro heq
    obtain ⟨rfl, -⟩ := h.tells_listing (x := [n]) (y := ns) ⟨by simp, by simpa using hn⟩
      ⟨List.ne_nil_of_length_pos (by omega), hns⟩ hk hk' (List.append_cancel_left heq)
    simp at hlen

/-- **The wording of a shape tells it if it breaks off.** -/
theorem Clear.tells (h : w.Clear p) :
    Tells (fun shape => (w.text shape).toList) (Shape.Of p) Breaks := by
  intro x y k k' hx hy hk hk' heq
  dsimp only at heq
  match x, y with
  | .every m, .every n =>
    simp only [text, String.toList_append, List.append_assoc] at heq
    obtain ⟨rfl, hrest⟩ := tells_number trivial trivial (h.unit _) (h.unit _)
      (List.append_cancel_left heq)
    exact ⟨rfl, List.append_cancel_left hrest⟩
  | .single m, .single n =>
    simp only [text, String.toList_append, List.append_assoc] at heq
    obtain ⟨rfl, rfl⟩ := h.item hx hy hk.noDigit hk'.noDigit (List.append_cancel_left heq)
    exact ⟨rfl, rfl⟩
  | .each ms, .each ns =>
    simp only [text, String.toList_append, List.append_assoc] at heq
    obtain ⟨hmlen, hm⟩ := hx
    obtain ⟨hnlen, hn⟩ := hy
    obtain ⟨rfl, rfl⟩ := h.tells_listing ⟨List.ne_nil_of_length_pos (by omega), hm⟩
      ⟨List.ne_nil_of_length_pos (by omega), hn⟩ hk hk' (List.append_cancel_left heq)
    exact ⟨rfl, rfl⟩
  | .span a b, .span a' b' =>
    simp only [text, String.toList_append, List.append_assoc] at heq
    obtain ⟨rfl, hrest⟩ := h.endItem hx.1 hy.1 (h.upTo _) (h.upTo _) (List.append_cancel_left heq)
    obtain ⟨rfl, rfl⟩ := h.endItem hx.2 hy.2 hk.noDigit hk'.noDigit (List.append_cancel_left hrest)
    exact ⟨rfl, rfl⟩
  | .every m, .single _ | .every m, .span _ _ | .every m, .each _ =>
    exact absurd heq (h.every_ne m (by simp) _ _)
  | .single _, .every n | .span _ _, .every n | .each _, .every n =>
    exact absurd heq.symm (h.every_ne n (by simp) _ _)
  | .span a b, .single n => exact absurd heq (h.span_ne_single hx.1 hy hk')
  | .single n, .span a b => exact absurd heq.symm (h.span_ne_single hy.1 hx hk)
  | .span a b, .each ns => exact absurd heq (h.span_ne_each hx.1 hy hk')
  | .each ns, .span a b => exact absurd heq.symm (h.span_ne_each hy.1 hx hk)
  | .single n, .each ns => exact absurd heq (h.single_ne_each hx hy hk hk')
  | .each ns, .single n => exact absurd heq.symm (h.single_ne_each hy hx hk' hk)

/-! ### The words of two fields -/

variable {w' : ShapeWords}

/-- **Words that are not taken for those of another field**: they come first in other words, or
count another unit. -/
structure Apart (w w' : ShapeWords) : Prop where
  leads : ∀ lead ∈ [w.one, w.each, w.ends], ∀ lead' ∈ [w'.one, w'.each, w'.ends, w'.every],
    Clash lead.toList lead'.toList
  every : ∀ lead' ∈ [w'.one, w'.each, w'.ends], Clash w.every.toList lead'.toList
  same : w.every = w'.every
  unit : ∀ k, NoDigit (w.unit.toList ++ k)
  unit' : ∀ k, NoDigit (w'.unit.toList ++ k)
  units : Clash w.unit.toList w'.unit.toList

theorem Apart.text_ne (h : w.Apart w') (x y : Shape) (k k' : List Char) :
    (w.text x).toList ++ k ≠ (w'.text y).toList ++ k' := by
  intro heq
  rcases w.every_or_lead x with ⟨m, rfl⟩ | ⟨lead, hlead, rest, hrest⟩
  · rcases w'.every_or_lead y with ⟨n, rfl⟩ | ⟨lead', hlead', rest', hrest'⟩
    · -- two steps begin alike, and are told apart by their unit
      simp only [text, String.toList_append, List.append_assoc, h.same] at heq
      obtain ⟨-, hunits⟩ := tells_number trivial trivial (h.unit _) (h.unit' _)
        (List.append_cancel_left heq)
      exact h.units.ne _ _ hunits
    · rw [← hrest'] at heq
      simp only [text, String.toList_append, List.append_assoc] at heq
      exact (h.every lead' hlead').ne _ _ heq
  · obtain ⟨lead', hlead', rest', hrest'⟩ := w'.exists_lead y
    rw [← hrest, ← hrest', List.append_assoc, List.append_assoc] at heq
    exact (h.leads lead hlead lead' hlead').ne _ _ heq

end ShapeWords

end Crontab
