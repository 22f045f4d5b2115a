import Crontab.Error
import Mathlib.Data.List.Forall2

/-! # Outcomes of computations that may fail

A computation that ends well took each of its steps well: `bind_eq_ok` takes a chain of
steps apart at its first, `bind_eq_error` finds the step at which it has failed, and the lemmas
after them do the same for the other ways in which outcomes are put together.
-/

namespace Crontab.Outcome

variable {ε ε' α β : Type}

theorem bind_eq_ok {x : Except ε α} {f : α → Except ε β} {b : β} :
    (x >>= f) = .ok b ↔ ∃ a, x = .ok a ∧ f a = .ok b := by
  cases x <;> simp [bind, Except.bind]

theorem bind_eq_error {x : Except ε α} {f : α → Except ε β} {e : ε} :
    (x >>= f) = .error e ↔ x = .error e ∨ ∃ a, x = .ok a ∧ f a = .error e := by
  cases x <;> simp [bind, Except.bind]

/-- Two computations that begin alike come to one end if they go on alike. -/
theorem bind_congr_ok {x : Except ε α} {f g : α → Except ε β} (h : ∀ a, x = .ok a → f a = g a) :
    (x >>= f) = (x >>= g) := by
  cases x with
  | error e => rfl
  | ok a => exact h a rfl

/-- Two computations that begin alike come to one end, or the first to one of its own. -/
theorem bind_congr_or {x : Except ε α} {f g : α → Except ε β} {own : β → Prop}
    (h : ∀ a, x = .ok a → f a = g a ∨ ∃ b, own b ∧ f a = .ok b) :
    (x >>= f) = (x >>= g) ∨ ∃ b, own b ∧ (x >>= f) = .ok b := by
  cases x with
  | error e => exact Or.inl rfl
  | ok a => exact h a rfl

theorem map_eq_ok {x : Except ε α} {f : α → β} {b : β} :
    x.map f = .ok b ↔ ∃ a, x = .ok a ∧ f a = b := by
  cases x <;> simp [Except.map]

theorem mapError_eq_ok {x : Except ε α} {f : ε → ε'} {a : α} :
    x.mapError f = .ok a ↔ x = .ok a := by
  cases x <;> simp [Except.mapError]

/-- A list of computations ends well exactly if each of them does. -/
theorem mapM_eq_ok {f : α → Except ε β} {xs : List α} {ys : List β} :
    xs.mapM f = .ok ys ↔ List.Forall₂ (fun x y => f x = .ok y) xs ys := by
  induction xs generalizing ys with
  | nil => simp [pure, Except.pure, eq_comm]
  | cons x xs ih =>
    rw [List.mapM_cons, bind_eq_ok]
    constructor
    · rintro ⟨y, hy, h⟩
      obtain ⟨rest, hrest, h⟩ := bind_eq_ok.mp h
      cases h
      exact .cons hy (ih.mp hrest)
    · rintro (_ | ⟨hy, hrest⟩)
      exact ⟨_, hy, bind_eq_ok.mpr ⟨_, ih.mpr hrest, rfl⟩⟩

/-- Computing each value just before it is used succeeds as computing all of them first does. -/
theorem foldlM_bind_eq_ok {γ : Type} {f : α → Except ε β} {g : γ → β → Except ε γ} {xs : List α}
    {c d : γ} : xs.foldlM (fun c x => do g c (← f x)) c = .ok d ↔
      ∃ ys, xs.mapM f = .ok ys ∧ ys.foldlM g c = .ok d := by
  induction xs generalizing c with
  | nil => simp [pure, Except.pure]
  | cons x xs ih =>
    rw [List.foldlM_cons, List.mapM_cons]
    constructor
    · intro h
      obtain ⟨e, he, h⟩ := bind_eq_ok.mp h
      obtain ⟨y, hy, he⟩ := bind_eq_ok.mp he
      obtain ⟨ys, hys, h⟩ := ih.mp h
      exact ⟨y :: ys, bind_eq_ok.mpr ⟨y, hy, bind_eq_ok.mpr ⟨ys, hys, rfl⟩⟩,
        bind_eq_ok.mpr ⟨e, he, h⟩⟩
    · rintro ⟨_, hmap, h⟩
      obtain ⟨y, hy, hmap⟩ := bind_eq_ok.mp hmap
      obtain ⟨ys, hys, hmap⟩ := bind_eq_ok.mp hmap
      cases hmap
      obtain ⟨e, he, h⟩ := bind_eq_ok.mp h
      exact bind_eq_ok.mpr ⟨e, bind_eq_ok.mpr ⟨y, hy, he⟩, ih.mpr ⟨ys, hys, h⟩⟩

/-- What every step of a fold keeps, the fold keeps. -/
theorem foldlM_keeps {γ : Type} {p : γ → Prop} {g : γ → β → Except ε γ}
    (hg : ∀ {c d y}, p c → g c y = .ok d → p d) {ys : List β} {c d : γ} (hc : p c)
    (h : ys.foldlM g c = .ok d) : p d := by
  induction ys generalizing c with
  | nil =>
    cases h
    exact hc
  | cons y ys ih =>
    obtain ⟨e, he, h⟩ := bind_eq_ok.mp h
    exact ih (hg hc he) h

theorem orOutOfCalendar_eq_ok {x : Option α} {a : α} :
    orOutOfCalendar x = .ok a ↔ x = some a := by
  cases x <;> simp [orOutOfCalendar]

end Crontab.Outcome
