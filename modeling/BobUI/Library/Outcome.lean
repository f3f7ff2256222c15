/-!
# Outcomes of fallible computations

`Yields E P x` says that the computation `x` ends with a value that has the property `P`, or
fails with one of the errors `E`.
-/

variable {ε α β : Type}

theorem ok_bind (a : α) (f : α → Except ε β) :
  (Except.ok a >>= f) = f a
  := rfl

def Yields (E : ε → Prop) (P : α → Prop) : Except ε α → Prop
  | .ok a => P a
  | .error e => E e

namespace Yields

variable {E E' : ε → Prop} {P P' : α → Prop} {Q : β → Prop} {x : Except ε α}

theorem bind {f : α → Except ε β} (h : Yields E P x) (hf : ∀ a, P a → Yields E Q (f a)) :
  Yields E Q (x >>= f)
  := by
  cases x with
  | ok a => exact hf a h
  | error e => exact h

theorem mono (h : Yields E P x) (hE : ∀ e, E e → E' e) (hP : ∀ a, P a → P' a) :
  Yields E' P' x
  := by
  cases x with
  | ok a => exact hP a h
  | error e => exact hE e h

/-- A computation that cannot fail. -/
theorem of_eq {a : α} (h : x = .ok a) (ha : P a) :
  Yields E P x
  := by
  rw [h]
  exact ha

theorem cases (h : Yields E P x) :
  (∃ a, x = .ok a ∧ P a) ∨ ∃ e, x = .error e ∧ E e
  := by
  cases x with
  | ok a => exact .inl ⟨a, rfl, h⟩
  | error e => exact .inr ⟨e, rfl, h⟩

end Yields
