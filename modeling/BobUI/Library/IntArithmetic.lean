import Mathlib.Data.Int.Notation

/-!
# Arithmetic of 32 bits

The operations on machine integers of 32 bits are not defined where their results leave the range.
A computation is a value, for which such results are wrapped around, together with whether all
results stayed in the range and all assertions were true.
-/

/-- The integers of 32 bits. -/
def InInt (x : ℤ) : Prop :=
  -2147483648 ≤ x ∧ x ≤ 2147483647

instance : DecidablePred InInt :=
  fun x => inferInstanceAs (Decidable (-2147483648 ≤ x ∧ x ≤ 2147483647))

/-- The integer of 32 bits with the same residue. -/
def wrapInt (x : ℤ) : ℤ :=
  Int.bmod x 4294967296

theorem wrapInt_of_inInt {x : ℤ} (h : InInt x) :
  wrapInt x = x
  := by
  obtain ⟨hmin, hmax⟩ := h
  rw [wrapInt, Int.bmod_def]
  omega

/-- A computation with integers of 32 bits and assertions. -/
structure Checked (α : Type) where
  value : α
  sound : Bool
deriving DecidableEq

namespace Checked

variable {α β : Type}

instance : Monad Checked where
  pure a := ⟨a, true⟩
  bind m f := ⟨(f m.value).value, m.sound && (f m.value).sound⟩

/-- The result of an operation. -/
def int (x : ℤ) : Checked ℤ :=
  ⟨wrapInt x, decide (InInt x)⟩

/-- An assertion. -/
def assert (p : Prop) [Decidable p] : Checked Unit :=
  ⟨(), decide p⟩

/-- The computation is defined, and this is its value. -/
def Gives (m : Checked α) (a : α) : Prop :=
  m.sound = true ∧ m.value = a

@[simp]
theorem gives_pure_iff {a b : α} :
  (pure a : Checked α).Gives b ↔ a = b
  := and_iff_right rfl

theorem gives_bind_iff {m : Checked α} {f : α → Checked β} {b : β} :
  (m >>= f).Gives b ↔ ∃ a, m.Gives a ∧ (f a).Gives b
  := by
  change (m.sound && (f m.value).sound) = true ∧ _ = b ↔ _
  rw [Bool.and_eq_true]
  constructor
  · rintro ⟨⟨hm, hf⟩, hb⟩
    exact ⟨m.value, ⟨hm, rfl⟩, hf, hb⟩
  · rintro ⟨a, ⟨hm, rfl⟩, hf, hb⟩
    exact ⟨⟨hm, hf⟩, hb⟩

theorem gives_int_iff {x y : ℤ} :
  (int x).Gives y ↔ InInt x ∧ x = y
  := by
  rw [Gives, int, decide_eq_true_eq]
  apply and_congr_right
  intro h
  rw [wrapInt_of_inInt h]

@[simp]
theorem gives_int_bind_iff {x : ℤ} {f : ℤ → Checked β} {b : β} :
  (int x >>= f).Gives b ↔ InInt x ∧ (f x).Gives b
  := by
  simp only [gives_bind_iff, gives_int_iff, and_assoc, exists_and_left, exists_eq_left']

@[simp]
theorem gives_assert_bind_iff {p : Prop} [Decidable p] {f : Unit → Checked β} {b : β} :
  (assert p >>= f).Gives b ↔ p ∧ (f ()).Gives b
  := by
  rw [gives_bind_iff]
  constructor
  · rintro ⟨⟨⟩, ⟨h, -⟩, hf⟩
    exact ⟨of_decide_eq_true h, hf⟩
  · rintro ⟨h, hf⟩
    exact ⟨(), ⟨decide_eq_true h, rfl⟩, hf⟩

@[simp]
theorem pure_bind (a : α) (f : α → Checked β) :
  ((pure a : Checked α) >>= f) = f a
  := by
  change (⟨_, true && _⟩ : Checked β) = _
  rw [Bool.true_and]
  rfl

end Checked
