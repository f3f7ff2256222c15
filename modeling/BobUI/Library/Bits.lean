import Mathlib.Algebra.Order.Ring.Nat
import Mathlib.Data.List.Basic
import Mathlib.Data.Nat.Bitwise
import BobUI.Library.PrefixCode

/-!
# Bit strings

A bit string stands for a number, the first bit at the top.  At the top of a word it is followed
by zeros where it is shorter than the word.
-/

namespace Bits

/-- The number that a bit string stands for. -/
def ofBits : List Bool → ℕ
  | [] => 0
  | b :: bits => b.toNat * 2 ^ bits.length + ofBits bits

/-- The low bits of a number. -/
def toBits : ℕ → ℕ → List Bool
  | 0, _ => []
  | n + 1, x => x.testBit n :: toBits n x

variable {bits bits' : List Bool} {n m x : ℕ}

@[simp]
theorem length_toBits (n x : ℕ) :
  (toBits n x).length = n
  := by
  induction n with
  | zero => rfl
  | succ n ih => rw [toBits, List.length_cons, ih]

theorem ofBits_lt (bits : List Bool) :
  ofBits bits < 2 ^ bits.length
  := by
  induction bits with
  | nil => exact Nat.one_pos
  | cons b bits ih =>
    rw [ofBits, List.length_cons, Nat.pow_succ]
    cases b with
    | false =>
      rw [Bool.toNat_false]
      omega
    | true =>
      rw [Bool.toNat_true]
      omega

theorem ofBits_append (bits bits' : List Bool) :
  ofBits (bits ++ bits') = ofBits bits * 2 ^ bits'.length + ofBits bits'
  := by
  induction bits with
  | nil => rw [List.nil_append, ofBits, Nat.zero_mul, Nat.zero_add]
  | cons b bits ih =>
    rw [List.cons_append, ofBits, ofBits, ih, List.length_append, Nat.pow_add]
    ring

theorem ofBits_toBits (n x : ℕ) :
  ofBits (toBits n x) = x % 2 ^ n
  := by
  induction n with
  | zero => rw [toBits, ofBits, Nat.pow_zero, Nat.mod_one]
  | succ n ih =>
    rw [toBits, ofBits, ih, length_toBits, Nat.mod_pow_succ, Nat.toNat_testBit]
    ring

theorem ofBits_inj (h : bits.length = bits'.length) (heq : ofBits bits = ofBits bits') :
  bits = bits'
  := by
  induction bits generalizing bits' with
  | nil => exact (List.length_eq_zero_iff.mp h.symm).symm
  | cons b bits ih =>
    cases bits' with
    | nil => cases h
    | cons b' bits' =>
      have hlength : bits.length = bits'.length := Nat.succ.inj h
      have hlt := ofBits_lt bits
      have hlt' := ofBits_lt bits'
      rw [ofBits, ofBits, hlength] at heq
      rw [hlength] at hlt
      cases b with
      | false =>
        cases b' with
        | false => rw [ih hlength (by simpa using heq)]
        | true =>
          rw [Bool.toNat_false, Bool.toNat_true] at heq
          omega
      | true =>
        cases b' with
        | false =>
          rw [Bool.toNat_false, Bool.toNat_true] at heq
          omega
        | true => rw [ih hlength (by simpa using heq)]

theorem toBits_ofBits (bits : List Bool) :
  toBits bits.length (ofBits bits) = bits
  := by
  apply ofBits_inj (length_toBits _ _)
  rw [ofBits_toBits, Nat.mod_eq_of_lt (ofBits_lt bits)]

theorem toBits_mod (n x : ℕ) :
  toBits n (x % 2 ^ n) = toBits n x
  := by
  apply ofBits_inj
  · rw [length_toBits, length_toBits]
  · rw [ofBits_toBits, ofBits_toBits, Nat.mod_mod]

theorem toBits_add (m n x : ℕ) :
  toBits (m + n) x = toBits m (x / 2 ^ n) ++ toBits n x
  := by
  apply ofBits_inj
  · rw [List.length_append, length_toBits, length_toBits, length_toBits]
  · rw [ofBits_append, length_toBits, ofBits_toBits, ofBits_toBits, ofBits_toBits, Nat.add_comm m n,
      Nat.pow_add, Nat.mod_mul]
    ring

theorem ofBits_take (bits : List Bool) (m : ℕ) :
  ofBits (bits.take m) = ofBits bits / 2 ^ (bits.length - m)
  := by
  have hsplit := ofBits_append (bits.take m) (bits.drop m)
  have hlt := ofBits_lt (bits.drop m)
  rw [List.take_append_drop, List.length_drop] at hsplit
  rw [List.length_drop] at hlt
  rw [hsplit, Nat.mul_comm, Nat.mul_add_div (Nat.two_pow_pos _), Nat.div_eq_of_lt hlt,
    Nat.add_zero]

theorem ofBits_drop (bits : List Bool) (m : ℕ) :
  ofBits (bits.drop m) = ofBits bits % 2 ^ (bits.length - m)
  := by
  have hsplit := ofBits_append (bits.take m) (bits.drop m)
  have hlt := ofBits_lt (bits.drop m)
  rw [List.take_append_drop, List.length_drop] at hsplit
  rw [List.length_drop] at hlt
  rw [hsplit, Nat.mul_comm, Nat.mul_add_mod, Nat.mod_eq_of_lt hlt]

theorem ofBits_replicate_true (n : ℕ) :
  ofBits (List.replicate n true) = 2 ^ n - 1
  := by
  induction n with
  | zero => rfl
  | succ n ih =>
    have hpos := Nat.two_pow_pos n
    rw [List.replicate_succ, ofBits, ih, List.length_replicate, Bool.toNat_true, Nat.pow_succ]
    omega

/-! ### Words -/

/-- The word of `w` bits that begins with a bit string, and goes on with zeros. -/
def word (w : ℕ) (bits : List Bool) : ℕ :=
  ofBits (bits.take w) * 2 ^ (w - (bits.take w).length)

variable {w : ℕ}

theorem word_lt (w : ℕ) (bits : List Bool) :
  word w bits < 2 ^ w
  := by
  have hle : (bits.take w).length ≤ w := List.length_take_le w bits
  calc word w bits
      < 2 ^ (bits.take w).length * 2 ^ (w - (bits.take w).length) :=
        Nat.mul_lt_mul_of_pos_right (ofBits_lt _) (Nat.two_pow_pos _)
    _ = 2 ^ w := by rw [← Nat.pow_add, Nat.add_sub_cancel' hle]

theorem top_word (h : m ≤ bits.length) (hw : m ≤ w) :
  PrefixCode.top w m (word w bits) = ofBits (bits.take m)
  := by
  have htake : (bits.take w).take m = bits.take m := by
    rw [List.take_take, Nat.min_eq_left hw]
  have hlength : (bits.take w).length = min w bits.length := List.length_take
  have hm : m ≤ (bits.take w).length := by
    rw [hlength]
    exact Nat.le_min.mpr ⟨hw, h⟩
  have hle : (bits.take w).length ≤ w := List.length_take_le w bits
  have hpow : 2 ^ (w - m) = 2 ^ ((bits.take w).length - m) * 2 ^ (w - (bits.take w).length) := by
    rw [← Nat.pow_add]
    congr 1
    omega
  rw [PrefixCode.top, word, hpow, Nat.mul_div_mul_right _ _ (Nat.two_pow_pos _), ← htake,
    ofBits_take (bits.take w) m]

/-- The first bits of a bit string are those of a number. -/
theorem top_word_eq_iff (h : m ≤ bits.length) (hw : m ≤ w) :
  PrefixCode.top w m (word w bits) = PrefixCode.top w m x
    ↔ bits.take m = toBits m (PrefixCode.top w m x) ∧ PrefixCode.top w m x < 2 ^ m
  := by
  have hlength : (bits.take m).length = m := by
    rw [List.length_take, Nat.min_eq_left h]
  rw [top_word h hw]
  constructor
  · intro heq
    have hlt := ofBits_lt (bits.take m)
    rw [hlength] at hlt
    rw [← heq]
    refine ⟨?_, hlt⟩
    have hback := toBits_ofBits (bits.take m)
    rw [hlength] at hback
    exact hback.symm
  · rintro ⟨heq, hlt⟩
    rw [heq, ofBits_toBits, Nat.mod_eq_of_lt hlt]

end Bits
