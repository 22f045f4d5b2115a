import Crontab.Language.English
import Mathlib.Data.List.Infix

/-! # Texts that tell things apart

A text does not end where the next begins, so whether two of them are the same is asked together
with what follows (`Tells`): where the whole is the same, so are the things told, and what follows
them.  Names of which none begins another do this whatever follows (`tells_of_prefix`), and numbers
do it if no digit follows (`tells_number`).

A list in English tells its items if it is followed by something that is no more of it: its last
item comes after an `or`, and what breaks off a list goes on with a small letter where an item
does not (`Breaks`, `tells_listing`).
-/

namespace Crontab

variable {α : Type} {ok : α → Prop} {text : α → List Char} {after : List Char → Prop}
  {a b k : List Char}

/-! ### Telling -/

/-- **Texts of things that are `ok` tell them apart** when what follows is in `after`. -/
def Tells (text : α → List Char) (ok : α → Prop) (after : List Char → Prop) : Prop :=
  ∀ ⦃x y : α⦄ ⦃k k' : List Char⦄, ok x → ok y → after k → after k' →
    text x ++ k = text y ++ k' → x = y ∧ k = k'

/-- Texts of which none begins another tell things apart whatever follows. -/
theorem tells_of_prefix (h : ∀ x y, ok x → ok y → text x <+: text y → x = y) :
    Tells text ok after := by
  intro x y k k' hx hy _ _ heq
  have hxy : x = y := by
    have hprefix : text x <+: text y ++ k' := ⟨k, heq⟩
    rcases List.prefix_or_prefix_of_prefix hprefix (List.prefix_append (text y) k') with hp | hp
    · exact h x y hx hy hp
    · exact (h y x hy hx hp).symm
  subst hxy
  exact ⟨rfl, List.append_cancel_left heq⟩

theorem Tells.mono {ok' : α → Prop} (h : Tells text ok after) (hok : ∀ x, ok' x → ok x) :
    Tells text ok' after :=
  fun _ _ _ _ hx hy => h (hok _ hx) (hok _ hy)

/-- Neither text begins the other. -/
def Clash (a b : List Char) : Prop := ¬ a <+: b ∧ ¬ b <+: a

instance (a b : List Char) : Decidable (Clash a b) :=
  inferInstanceAs (Decidable (_ ∧ _))

theorem Clash.ne (h : Clash a b) (k k' : List Char) : a ++ k ≠ b ++ k' := by
  intro heq
  have hprefix : a <+: b ++ k' := ⟨k, heq⟩
  rcases List.prefix_or_prefix_of_prefix hprefix (List.prefix_append b k') with hp | hp
  · exact h.1 hp
  · exact h.2 hp

/-! ### Numbers -/

/-- No digit comes first. -/
def NoDigit (k : List Char) : Prop := ∀ c ∈ k.head?, c.isDigit = false

/-- What consists of digits ends where no digit follows. -/
theorem takeWhile_isDigit (ha : ∀ c ∈ a, c.isDigit = true) (hk : NoDigit k) :
    (a ++ k).takeWhile Char.isDigit = a := by
  rw [List.takeWhile_append_of_pos ha]
  cases k with
  | nil => simp
  | cons c cs => simp [hk c rfl]

theorem isDigit_of_mem_number (n : Nat) : ∀ c ∈ (toString n).toList, c.isDigit = true := by
  intro c hc
  rw [Nat.toString_eq_repr, Nat.toList_repr] at hc
  exact Nat.isDigit_of_mem_toDigits (by decide) (by decide) hc

/-- **Numbers tell themselves apart if no digit follows.** -/
theorem tells_number : Tells (fun n : Nat => (toString n).toList) (fun _ => True) NoDigit := by
  intro m n k k' _ _ hk hk' heq
  dsimp only at heq
  have hsame : (toString m).toList = (toString n).toList := by
    rw [← takeWhile_isDigit (isDigit_of_mem_number m) hk,
      ← takeWhile_isDigit (isDigit_of_mem_number n) hk', heq]
  rw [hsame] at heq
  refine ⟨?_, List.append_cancel_left heq⟩
  rw [Nat.toString_eq_repr, Nat.toString_eq_repr, Nat.toList_repr, Nat.toList_repr] at hsame
  have hvalue := congrArg (Nat.ofDigitChars 10 · 0) hsame
  simpa using hvalue

/-! ### Lists -/

/-- What may follow a list: another phrase, after a comma or the word that joins them. -/
def breaks : List String :=
  [", on ", ", in ", ", at ", ", every ", ", between ", " in ", " every ", " or on "]

/-- **A list breaks off**: nothing follows, or another phrase. -/
def Breaks (k : List Char) : Prop := k = [] ∨ ∃ b ∈ breaks, b.toList <+: k

theorem Breaks.noDigit (h : Breaks k) : NoDigit k := by
  rcases h with rfl | ⟨b, hb, cs, rfl⟩
  · simp [NoDigit]
  · revert b
    simp [breaks, NoDigit]

theorem ne_of_isLower {c d : Char} (hc : c.isLower = false) (hd : d.isLower = true) : c ≠ d := by
  rintro rfl
  rw [hd] at hc
  cases hc

/-- An item of a list starts with no small letter. -/
def StartsItem (a : List Char) : Prop := ∃ c cs, a = c :: cs ∧ c.isLower = false

instance : ∀ a : List Char, Decidable (StartsItem a)
  | [] => isFalse (by simp [StartsItem])
  | c :: _ => decidable_of_iff (c.isLower = false) (by simp [StartsItem])

theorem StartsItem.append (h : StartsItem a) (k : List Char) : StartsItem (a ++ k) := by
  obtain ⟨c, cs, rfl, hc⟩ := h
  exact ⟨c, cs ++ k, rfl, hc⟩

theorem startsItem_number (n : Nat) : StartsItem (toString n).toList := by
  have hdigits := isDigit_of_mem_number n
  cases hn : (toString n).toList with
  | nil =>
    rw [Nat.toString_eq_repr, Nat.toList_repr] at hn
    exact absurd hn Nat.toDigits_ne_nil
  | cons c cs =>
    have hc : c.isDigit = true := hdigits c (hn ▸ List.mem_cons_self)
    refine ⟨c, cs, rfl, ?_⟩
    -- digits come before the letters
    rw [Char.isDigit, Bool.and_eq_true, decide_eq_true_eq, decide_eq_true_eq] at hc
    have hlower : c.isLower = (decide (97 ≤ c.val) && decide (c.val ≤ 122)) := rfl
    rw [hlower, Bool.and_eq_false_iff, decide_eq_false_iff_not]
    left
    intro hletter
    exact absurd (UInt32.le_trans hletter hc.2) (by decide)

/-- The words that join the items of a list do not break it off. -/
theorem StartsItem.not_breaks (h : StartsItem a) (k : List Char) :
    ¬ Breaks (" or ".toList ++ (a ++ k)) ∧ ¬ Breaks (", ".toList ++ (a ++ k)) := by
  obtain ⟨c, cs, rfl, hc⟩ := h
  have hne : ∀ d : Char, d.isLower = true → d ≠ c := fun _ hd => (ne_of_isLower hc hd).symm
  simp [Breaks, breaks, hne]

/-- What stands behind an item of a list of three or more. -/
def itemsBehind (text : α → List Char) : List α → List Char
  | [] => []
  | [last] => ", or ".toList ++ text last
  | x :: xs => ", ".toList ++ (text x ++ itemsBehind text xs)

theorem itemsBehind_cons_cons (x y : α) (ys : List α) : itemsBehind text (x :: y :: ys) =
    ", ".toList ++ (text x ++ itemsBehind text (y :: ys)) := rfl

/-- What stands behind the first item of a list. -/
def itemsAfter (text : α → List Char) : List α → List Char
  | [second] => " or ".toList ++ text second
  | xs => itemsBehind text xs

theorem itemsAfter_cons_cons (x y : α) (ys : List α) :
    itemsAfter text (x :: y :: ys) = itemsBehind text (x :: y :: ys) := rfl

/-- A list of three or more items, taken apart item by item. -/
theorem intercalate_dropLast (item : α → String) : ∀ (x y : α) (xs : List α),
    (String.intercalate ", " ((x :: y :: xs).map item).dropLast ++ ", or " ++
        ((x :: y :: xs).map item).getLastD "").toList =
      (item x).toList ++ itemsBehind (fun x => (item x).toList) (y :: xs)
  | x, y, [] => by simp [itemsBehind]
  | x, y, z :: zs => by
      have ih := intercalate_dropLast item y z zs
      have hdrop : ((x :: y :: z :: zs).map item).dropLast =
          item x :: ((y :: z :: zs).map item).dropLast := rfl
      have hne : ((y :: z :: zs).map item).dropLast ≠ [] := by simp
      rw [hdrop, String.intercalate_cons_of_ne_nil hne]
      simpa [itemsBehind] using ih

theorem listing_toList (item : α → String) (x : α) (xs : List α) :
    (english.listing ((x :: xs).map item)).toList =
      (item x).toList ++ itemsAfter (fun x => (item x).toList) xs := by
  match xs with
  | [] => simp [Language.listing, itemsAfter, itemsBehind]
  | [y] => simp [Language.listing, itemsAfter, english]
  | y :: z :: zs =>
    rw [itemsAfter_cons_cons, ← intercalate_dropLast item x y (z :: zs)]
    simp [Language.listing, english]

theorem StartsItem.ne_or (h : StartsItem a) (k k' : List Char) :
    ", ".toList ++ (a ++ k) ≠ ", or ".toList ++ k' := by
  obtain ⟨c, cs, rfl, hc⟩ := h
  have hne : c ≠ 'o' := ne_of_isLower hc rfl
  simp [hne]

theorem noDigit_itemsBehind (x : α) (xs : List α) (k : List Char) :
    NoDigit (itemsBehind text (x :: xs) ++ k) := by
  cases xs <;> simp [itemsBehind, NoDigit]

/-- What stands behind an item of a list of three or more tells the items there: the last comes
after an `or`. -/
theorem tells_itemsBehind (hitem : Tells text ok NoDigit)
    (hstart : ∀ x, ok x → StartsItem (text x)) :
    ∀ (xs ys : List α) {k k' : List Char}, xs ≠ [] → ys ≠ [] → (∀ x ∈ xs, ok x) →
      (∀ y ∈ ys, ok y) → NoDigit k → NoDigit k' →
      itemsBehind text xs ++ k = itemsBehind text ys ++ k' → xs = ys ∧ k = k'
  | [x], [y], k, k', _, _, hx, hy, hk, hk', heq => by
      simp only [itemsBehind, List.append_assoc] at heq
      obtain ⟨rfl, rfl⟩ := hitem (hx x (by simp)) (hy y (by simp)) hk hk'
        (List.append_cancel_left heq)
      exact ⟨rfl, rfl⟩
  | [x], y :: y' :: ys, k, k', _, _, _, hy, _, _, heq => by
      simp only [itemsBehind, List.append_assoc] at heq
      exact absurd heq.symm ((hstart y (hy y (by simp))).ne_or _ _)
  | x :: x' :: xs, [y], k, k', _, _, hx, _, _, _, heq => by
      simp only [itemsBehind, List.append_assoc] at heq
      exact absurd heq ((hstart x (hx x (by simp))).ne_or _ _)
  | x :: x' :: xs, y :: y' :: ys, k, k', _, _, hx, hy, hk, hk', heq => by
      simp only [itemsBehind_cons_cons, List.append_assoc] at heq
      obtain ⟨rfl, hrest⟩ := hitem (hx x (by simp)) (hy y (by simp))
        (noDigit_itemsBehind x' xs k) (noDigit_itemsBehind y' ys k') (List.append_cancel_left heq)
      obtain ⟨hxs, rfl⟩ := tells_itemsBehind hitem hstart (x' :: xs) (y' :: ys) (by simp)
        (by simp) (fun z hz => hx z (List.mem_cons_of_mem x hz))
        (fun z hz => hy z (List.mem_cons_of_mem x hz)) hk hk' hrest
      exact ⟨congrArg (x :: ·) hxs, rfl⟩

/-- What may stand behind an item of a list: another item, or what breaks the list off. -/
def FollowsItem (k : List Char) : Prop :=
  k = [] ∨ ∃ b ∈ [", ", " or ", " in ", " every "], b.toList <+: k

theorem Breaks.followsItem (h : Breaks k) : FollowsItem k := by
  rcases h with rfl | ⟨b, hb, cs, rfl⟩
  · exact Or.inl rfl
  · revert b
    simp [breaks, FollowsItem]

theorem FollowsItem.noDigit (h : FollowsItem k) : NoDigit k := by
  rcases h with rfl | ⟨b, hb, cs, rfl⟩
  · simp [NoDigit]
  · revert b
    simp [NoDigit]

theorem followsItem_itemsAfter (hk : Breaks k) (xs : List α) :
    FollowsItem (itemsAfter text xs ++ k) := by
  match xs with
  | [] => exact hk.followsItem
  | [x] => simp [itemsAfter, FollowsItem]
  | x :: y :: ys =>
    rw [itemsAfter_cons_cons, itemsBehind_cons_cons]
    simp [FollowsItem]

/-- What breaks a list off is not more of it. -/
theorem itemsAfter_append_ne (hstart : ∀ x, ok x → StartsItem (text x)) {xs : List α}
    (hne : xs ≠ []) (hxs : ∀ x ∈ xs, ok x) (hk : Breaks k) (k' : List Char) :
    itemsAfter text xs ++ k' ≠ k := by
  rintro rfl
  match xs, hne with
  | [x], _ =>
    obtain ⟨hor, -⟩ := (hstart x (hxs x (by simp))).not_breaks k'
    rw [itemsAfter, List.append_assoc] at hk
    exact hor hk
  | x :: y :: ys, _ =>
    obtain ⟨-, hcomma⟩ := (hstart x (hxs x (by simp))).not_breaks
      (itemsBehind text (y :: ys) ++ k')
    rw [itemsAfter_cons_cons, itemsBehind_cons_cons, List.append_assoc, List.append_assoc] at hk
    exact hcomma hk

/-- What stands behind the first item of a list tells the others if it breaks off. -/
theorem tells_itemsAfter (hitem : Tells text ok NoDigit)
    (hstart : ∀ x, ok x → StartsItem (text x)) :
    Tells (itemsAfter text) (fun xs => ∀ x ∈ xs, ok x) Breaks := by
  intro xs ys k k' hx hy hk hk' heq
  match xs, ys with
  | [], [] => exact ⟨rfl, heq⟩
  | [], y :: ys => exact absurd heq.symm (itemsAfter_append_ne hstart (by simp) hy hk k')
  | x :: xs, [] => exact absurd heq (itemsAfter_append_ne hstart (by simp) hx hk' k)
  | [x], [y] =>
    simp only [itemsAfter, List.append_assoc] at heq
    obtain ⟨rfl, rfl⟩ := hitem (hx x (by simp)) (hy y (by simp)) hk.noDigit hk'.noDigit
      (List.append_cancel_left heq)
    exact ⟨rfl, rfl⟩
  | [x], y :: y' :: ys => simp [itemsAfter, itemsBehind_cons_cons] at heq
  | x :: x' :: xs, [y] => simp [itemsAfter, itemsBehind_cons_cons] at heq
  | x :: x' :: xs, y :: y' :: ys =>
    exact tells_itemsBehind hitem hstart _ _ (by simp) (by simp) hx hy hk.noDigit hk'.noDigit heq

/-- **A list in English tells its items if it breaks off.** -/
theorem tells_listing {item : α → String} (hitem : Tells (fun x => (item x).toList) ok NoDigit)
    (hstart : ∀ x, ok x → StartsItem (item x).toList) :
    Tells (fun xs : List α => (english.listing (xs.map item)).toList)
      (fun xs => xs ≠ [] ∧ ∀ x ∈ xs, ok x) Breaks := by
  rintro xs ys k k' ⟨hxne, hx⟩ ⟨hyne, hy⟩ hk hk' heq
  match xs, ys, hxne, hyne with
  | x :: xs, y :: ys, _, _ =>
    simp only [listing_toList, List.append_assoc] at heq
    obtain ⟨rfl, hrest⟩ := hitem (hx x (by simp)) (hy y (by simp))
      (followsItem_itemsAfter hk xs).noDigit (followsItem_itemsAfter hk' ys).noDigit heq
    obtain ⟨rfl, rfl⟩ := tells_itemsAfter hitem hstart
      (fun z hz => hx z (List.mem_cons_of_mem x hz)) (fun z hz => hy z (List.mem_cons_of_mem x hz))
      hk hk' hrest
    exact ⟨rfl, rfl⟩

end Crontab
