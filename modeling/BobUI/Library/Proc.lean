import Mathlib.Logic.Relation

/-!
# Procedures

A procedure changes a state and returns a value, or it breaks off with an error; the state
reached before an error is kept.  `Along R p s` says that the state in which `p` ends when
started in `s`, with a value or with an error, is related to `s` by `R`.  For a preorder `R`
the rules below prove it along the structure of `p`.
-/

universe u

/-- A procedure over states of type `σ`, with errors of type `ε`. -/
def Proc (σ ε α : Type u) : Type u :=
  σ → Except ε α × σ

namespace Proc

variable {σ ε α β : Type u}

protected def pure (a : α) : Proc σ ε α :=
  fun s => (.ok a, s)

protected def bind (p : Proc σ ε α) (f : α → Proc σ ε β) : Proc σ ε β :=
  fun s =>
    match p s with
    | (.ok a, s') => f a s'
    | (.error e, s') => (.error e, s')

instance : Monad (Proc σ ε) where
  pure := Proc.pure
  bind := Proc.bind

/-- The current state. -/
def current : Proc σ ε σ :=
  fun s => (.ok s, s)

/-- A change of the state. -/
def change (f : σ → σ) : Proc σ ε PUnit :=
  fun s => (.ok ⟨⟩, f s)

/-- Breaking off. -/
def fail (e : ε) : Proc σ ε α :=
  fun s => (.error e, s)

/-- The procedure `p` where `c` holds. -/
def when (c : Prop) [Decidable c] (p : Proc σ ε PUnit) : Proc σ ε PUnit :=
  if c then p else Pure.pure ⟨⟩

/-- The procedure `f` for each member of a list. -/
def forEach {α : Type} (f : α → Proc σ ε PUnit) : List α → Proc σ ε PUnit
  | [] => Pure.pure ⟨⟩
  | a :: as => f a >>= fun _ => forEach f as

/-! ### Evaluation -/

@[simp]
theorem pure_apply (a : α) (s : σ) :
  (Pure.pure a : Proc σ ε α) s = (.ok a, s)
  := rfl

@[simp]
theorem current_apply (s : σ) :
  (current : Proc σ ε σ) s = (.ok s, s)
  := rfl

@[simp]
theorem change_apply (f : σ → σ) (s : σ) :
  (change f : Proc σ ε PUnit) s = (.ok ⟨⟩, f s)
  := rfl

theorem when_pos (p : Proc σ ε PUnit) {c : Prop} [Decidable c] (h : c) :
  when c p = p
  := if_pos h

theorem when_neg (p : Proc σ ε PUnit) {c : Prop} [Decidable c] (h : ¬c) :
  when c p = Pure.pure ⟨⟩
  := if_neg h

theorem bind_apply (p : Proc σ ε α) (f : α → Proc σ ε β) (s : σ) :
  (p >>= f) s =
    match p s with
    | (.ok a, s') => f a s'
    | (.error e, s') => (.error e, s')
  := rfl

variable {s : σ} {p : Proc σ ε α} {f : α → Proc σ ε β}

theorem bind_of_ok {s' : σ} {a : α} (h : p s = (.ok a, s')) :
  (p >>= f) s = f a s'
  := by
  rw [bind_apply, h]

theorem bind_of_error {s' : σ} {e : ε} (h : p s = (.error e, s')) :
  (p >>= f) s = (.error e, s')
  := by
  rw [bind_apply, h]

/-- What follows a procedure follows one with the same end. -/
theorem bind_of_eq {q : Proc σ ε α} {s' : σ} (h : p s = q s') :
  (p >>= f) s = (q >>= f) s'
  := by
  rw [bind_apply, h, bind_apply]

theorem bind_pure_bind {γ : Type u} (p : Proc σ ε α) (b : β) (f : β → Proc σ ε γ) (s : σ) :
  ((p >>= fun _ => Pure.pure b) >>= f) s = (p >>= fun _ => f b) s
  := by
  rw [bind_apply, bind_apply, bind_apply]
  rcases p s with ⟨_ | _, _⟩
  · rfl
  · rfl

@[simp]
theorem current_bind (f : σ → Proc σ ε β) (s : σ) :
  (current >>= f) s = f s s
  := rfl

@[simp]
theorem change_bind (g : σ → σ) (f : PUnit → Proc σ ε β) (s : σ) :
  (change g >>= f) s = f ⟨⟩ (g s)
  := rfl

@[simp]
protected theorem pure_bind (a : α) (f : α → Proc σ ε β) (s : σ) :
  (Pure.pure a >>= f) s = f a s
  := rfl

/-- A procedure that ends with a value went through its first part. -/
theorem bind_eq_ok {s' : σ} {b : β} (h : (p >>= f) s = (.ok b, s')) :
  ∃ a s₁, p s = (.ok a, s₁) ∧ f a s₁ = (.ok b, s')
  := by
  rcases hp : p s with ⟨a | a, s₁⟩
  · rw [bind_of_error hp] at h
    cases h
  · rw [bind_of_ok hp] at h
    exact ⟨a, s₁, rfl, h⟩

/-! ### Relations along a procedure -/

/-- The end of `p` started in `s` is related to `s`. -/
def Along (R : σ → σ → Prop) (p : Proc σ ε α) (s : σ) : Prop :=
  R s (p s).2

variable {R : σ → σ → Prop}

theorem Along.change {g : σ → σ} (h : R s (g s)) :
  Along R (Proc.change g : Proc σ ε PUnit) s
  := h

theorem Along.current_bind {f : σ → Proc σ ε β} (h : Along R (f s) s) :
  Along R (current >>= f) s
  := h

theorem Along.ite {c : Prop} [Decidable c] {q : Proc σ ε α} (hp : c → Along R p s)
    (hq : ¬c → Along R q s) :
  Along R (if c then p else q) s
  := by
  by_cases h : c
  · rw [if_pos h]
    exact hp h
  · rw [if_neg h]
    exact hq h

/-- A branch that is along the relation whatever the condition is. -/
theorem Along.guard {c : Prop} [Decidable c] {q : Proc σ ε α} (hp : Along R p s)
    (hq : ¬c → Along R q s) :
  Along R (if c then p else q) s
  := Along.ite (fun _ => hp) hq

section Preorder

variable [IsPreorder σ R]

protected theorem Along.pure (a : α) (s : σ) :
  Along R (Pure.pure a : Proc σ ε α) s
  := refl_of R s

theorem Along.fail (e : ε) (s : σ) :
  Along R (Proc.fail e : Proc σ ε α) s
  := refl_of R s

variable {s : σ} {p : Proc σ ε α}

/-- The rule of composition; the second part starts where the first ends with a value. -/
protected theorem Along.bind {f : α → Proc σ ε β} (hp : Along R p s)
    (hf : ∀ a s', p s = (.ok a, s') → Along R (f a) s') :
  Along R (p >>= f) s
  := by
  rcases h : p s with ⟨e | a, s'⟩
  · rw [Along, bind_of_error h]
    rw [Along, h] at hp
    exact hp
  · rw [Along, bind_of_ok h]
    rw [Along, h] at hp
    exact trans_of R hp (hf a s' h)

theorem Along.change_bind {g : σ → σ} {f : PUnit → Proc σ ε β} (hg : R s (g s))
    (hf : Along R (f ⟨⟩) (g s)) :
  Along R (Proc.change g >>= f) s
  := trans_of R hg hf

/-- The rule for a procedure that comes to another one in a related state. -/
theorem Along.of_eq {q : Proc σ ε α} {s' : σ} (h : p s = q s') (hs : R s s') (hq : Along R q s') :
  Along R p s
  := by
  rw [Along, h]
  exact trans_of R hs hq

/-- The rule of composition where the first part is known to end with a value. -/
theorem Along.bind_of_ok {f : α → Proc σ ε β} {s' : σ} {a : α} (h : p s = (.ok a, s'))
    (hp : R s s') (hf : Along R (f a) s') :
  Along R (p >>= f) s
  := Along.of_eq (Proc.bind_of_ok h) hp hf

theorem Along.when {c : Prop} [Decidable c] {p : Proc σ ε PUnit} (h : c → Along R p s) :
  Along R (Proc.when c p) s
  := Along.ite h fun _ => Along.pure _ s

theorem Along.forEach {α : Type} {f : α → Proc σ ε PUnit} {as : List α}
    (h : ∀ a ∈ as, ∀ s, Along R (f a) s) (s : σ) :
  Along R (Proc.forEach f as) s
  := by
  induction as generalizing s with
  | nil => exact Along.pure _ s
  | cons a as ih =>
    apply Along.bind (h a (List.mem_cons_self ..) s)
    intro _ s' _
    exact ih (fun b hb => h b (List.mem_cons_of_mem a hb)) s'

end Preorder

/-! ### Invariants -/

/-- What holds before holds afterwards. -/
def Preserves (I : σ → Prop) (s s' : σ) : Prop :=
  I s → I s'

instance (I : σ → Prop) : IsPreorder σ (Preserves I) where
  refl _ := id
  trans _ _ _ h₁ h₂ := h₂ ∘ h₁

/-- What holds where a part ends holds where the whole ends, if what follows preserves it. -/
theorem bind_ends {I : σ → Prop} (hp : I (p s).2)
    (hf : ∀ a s', p s = (.ok a, s') → Along (Preserves I) (f a) s') :
  I ((p >>= f) s).2
  := by
  rcases h : p s with ⟨e | a, s'⟩
  · rw [bind_of_error h]
    rw [h] at hp
    exact hp
  · rw [bind_of_ok h]
    rw [h] at hp
    exact hf a s' h hp

/-! ### Changes that a procedure does not see -/

/-- The procedure `p` does the same after the change `g` as before it. -/
def Commutes (g : σ → σ) (p : Proc σ ε α) : Prop :=
  ∀ s, p (g s) = ((p s).1, g (p s).2)

section Commutes

variable {g : σ → σ}

protected theorem Commutes.pure (a : α) :
  Commutes g (Pure.pure a : Proc σ ε α)
  := fun _ => rfl

theorem Commutes.fail (e : ε) :
  Commutes g (Proc.fail e : Proc σ ε α)
  := fun _ => rfl

theorem Commutes.change {f : σ → σ} (h : ∀ s, f (g s) = g (f s)) :
  Commutes g (Proc.change f : Proc σ ε PUnit)
  := by
  intro s
  rw [change_apply, change_apply, h]

protected theorem Commutes.bind {p : Proc σ ε α} {f : α → Proc σ ε β} (hp : Commutes g p)
    (hf : ∀ a, Commutes g (f a)) :
  Commutes g (p >>= f)
  := by
  intro s
  rcases h : p s with ⟨e | a, s'⟩
  · rw [bind_of_error h]
    apply bind_of_error
    rw [hp s, h]
  · rw [bind_of_ok h]
    rw [bind_of_ok (show p (g s) = (.ok a, g s') by rw [hp s, h])]
    exact hf a s'

/-- What follows has the same state at hand before the change and after it. -/
theorem Commutes.current_bind {f : σ → Proc σ ε β} (h : ∀ s, f (g s) = f s)
    (hf : ∀ s, Commutes g (f s)) :
  Commutes g (current >>= f)
  := by
  intro s
  rw [Proc.current_bind, Proc.current_bind, h]
  exact hf s s

theorem Commutes.ite {c : Prop} [Decidable c] {p q : Proc σ ε α} (hp : Commutes g p)
    (hq : Commutes g q) :
  Commutes g (if c then p else q)
  := by
  split
  · exact hp
  · exact hq

theorem Commutes.forEach {α : Type} {f : α → Proc σ ε PUnit} (h : ∀ a, Commutes g (f a))
    (as : List α) :
  Commutes g (Proc.forEach f as)
  := by
  induction as with
  | nil => exact Commutes.pure _
  | cons a as ih => exact Commutes.bind (h a) fun _ => ih

end Commutes

/-! ### Errors that a procedure does not end with -/

/-- The procedure `p` never breaks off with `e`. -/
def Avoids (e : ε) (p : Proc σ ε α) : Prop :=
  ∀ s, (p s).1 ≠ .error e

section Avoids

variable {e : ε}

protected theorem Avoids.pure (a : α) :
  Avoids e (Pure.pure a : Proc σ ε α)
  := by
  rintro s ⟨⟩

theorem Avoids.change (f : σ → σ) :
  Avoids e (Proc.change f : Proc σ ε PUnit)
  := by
  rintro s ⟨⟩

theorem Avoids.fail {e' : ε} (h : e' ≠ e) :
  Avoids e (Proc.fail e' : Proc σ ε α)
  := by
  rintro s ⟨⟩
  exact h rfl

variable {p : Proc σ ε α}

theorem bind_ne_error {f : α → Proc σ ε β} {s : σ} (hp : (p s).1 ≠ .error e)
    (hf : ∀ a, Avoids e (f a)) :
  ((p >>= f) s).1 ≠ .error e
  := by
  rcases h : p s with ⟨e' | a, s'⟩
  · rw [bind_of_error h]
    rw [h] at hp
    exact fun heq => hp (congrArg _ (Except.error.inj heq))
  · rw [bind_of_ok h]
    exact hf a s'

protected theorem Avoids.bind {f : α → Proc σ ε β} (hp : Avoids e p) (hf : ∀ a, Avoids e (f a)) :
  Avoids e (p >>= f)
  := fun s => bind_ne_error (hp s) hf

theorem Avoids.current_bind {f : σ → Proc σ ε β} (h : ∀ s, Avoids e (f s)) :
  Avoids e (current >>= f)
  := fun s => h s s

theorem Avoids.ite {c : Prop} [Decidable c] {q : Proc σ ε α} (hp : Avoids e p) (hq : Avoids e q) :
  Avoids e (if c then p else q)
  := by
  split
  · exact hp
  · exact hq

theorem Avoids.when {c : Prop} [Decidable c] {p : Proc σ ε PUnit} (h : Avoids e p) :
  Avoids e (Proc.when c p)
  := Avoids.ite h (Avoids.pure _)

theorem Avoids.forEach {α : Type} {f : α → Proc σ ε PUnit} (h : ∀ a, Avoids e (f a))
    (as : List α) :
  Avoids e (Proc.forEach f as)
  := by
  induction as with
  | nil => exact Avoids.pure _
  | cons a as ih => exact Avoids.bind (h a) fun _ => ih

end Avoids

end Proc
