import Mathlib.Data.Nat.Notation
import Mathlib.Tactic.SplitIfs
import Mathlib.Tactic.Common

/-!
# Variable-length integers

A number as digits, the lowest one first, with a threshold for each place: a digit below it is the
last one, and the others count from the threshold on.  A number has one such text, and no text is
the beginning of another one.
-/

namespace VariableLength

variable (base : ℕ) (t : ℕ → ℕ)

/-- The number of the digits from the place `k` on. -/
def value : ℕ → List ℕ → ℕ
  | _, [] => 0
  | k, d :: ds => d + (base - t k) * value (k + 1) ds

/-- The digits are those of one number, and the last one is below its threshold. -/
def IsWhole : ℕ → List ℕ → Prop
  | _, [] => False
  | k, d :: ds => if d < t k then ds = [] else d < base ∧ IsWhole (k + 1) ds

/-- The digits of a number; there is no more than one for each unit. -/
def digits : ℕ → ℕ → ℕ → List ℕ
  | 0, _, q => [q]
  | fuel + 1, k, q =>
    if q < t k then [q]
    else (t k + (q - t k) % (base - t k)) :: digits fuel (k + 1) ((q - t k) / (base - t k))

variable {base t} {fuel k q : ℕ} {ds : List ℕ}

theorem value_singleton (d : ℕ) :
  value base t k [d] = d
  := by
  rw [value, value, Nat.mul_zero, Nat.add_zero]

theorem value_digits :
  value base t k (digits base t fuel k q) = q
  := by
  induction fuel generalizing k q with
  | zero => rw [digits, value_singleton]
  | succ fuel ih =>
    rw [digits]
    split_ifs with h
    · rw [value_singleton]
    · rw [value, ih, Nat.add_assoc, Nat.mod_add_div]
      omega

/-- Each digit takes away at least one unit. -/
theorem next_lt (ht : 0 < t k) (h : ¬ q < t k) :
  (q - t k) / (base - t k) < q
  := by
  have hdiv := Nat.div_le_self (q - t k) (base - t k)
  omega

theorem isWhole_digits (ht : ∀ k, 0 < t k ∧ t k < base) (h : q ≤ fuel) :
  IsWhole base t k (digits base t fuel k q)
  := by
  induction fuel generalizing k q with
  | zero =>
    obtain rfl := Nat.le_zero.mp h
    rw [digits, IsWhole, if_pos (ht k).1]
  | succ fuel ih =>
    rw [digits]
    split_ifs with hlast
    · rw [IsWhole, if_pos hlast]
    · have hnext : (q - t k) / (base - t k) < q := next_lt (ht k).1 hlast
      have hmod := Nat.mod_lt (q - t k) (Nat.sub_pos_of_lt (ht k).2)
      rw [IsWhole, if_neg (Nat.not_lt_of_le (Nat.le_add_right _ _))]
      constructor
      · have hlt := (ht k).2
        omega
      · apply ih
        omega

end VariableLength
