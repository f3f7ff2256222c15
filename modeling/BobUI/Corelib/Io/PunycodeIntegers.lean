import BobUI.Corelib.Io.Punycode
import BobUI.Library.InsertionCode
import BobUI.Library.VariableLengthIntegers

/-!
# The integers of Punycode

The encoder writes variable-length integers, and the decoder reads them if none of its numbers
overflows.
-/

namespace QUrlIdna

open VariableLength

/-! ### Digits -/

/-- The threshold of the digit at the place `k`. -/
def thresholdAt (bias k : ℕ) : ℕ :=
  threshold bias (base * (k + 1))

theorem thresholdAt_bounds (bias k : ℕ) :
  0 < thresholdAt bias k ∧ thresholdAt bias k < base
  := by
  unfold thresholdAt threshold base tmin tmax
  split_ifs
  · decide
  · decide
  · omega

theorem encodeDigit_spec :
  ∀ d : Fin base, digitValue (encodeDigit d) = d ∧ encodeDigit d ≠ 0x2d ∧ encodeDigit d < 0x80
  := by decide

theorem digitValue_encodeDigit {d : ℕ} (h : d < base) :
  digitValue (encodeDigit d) = d
  := (encodeDigit_spec ⟨d, h⟩).1

theorem encodeLoop_eq (bias fuel qq k : ℕ) :
  encodeLoop bias fuel qq (base * (k + 1))
    = (digits base (thresholdAt bias) fuel k qq).map encodeDigit
  := by
  induction fuel generalizing qq k with
  | zero => rfl
  | succ fuel ih =>
    rw [encodeLoop, digits]
    by_cases h : qq < thresholdAt bias k
    · rw [if_pos h]
      exact if_pos h
    · have hnext : base * (k + 1) + base = base * (k + 1 + 1) := (Nat.mul_succ _ _).symm
      rw [if_neg h, List.map_cons, ← ih, ← hnext]
      exact if_neg h

/-- The digits of an integer. -/
def integer (bias delta : ℕ) : List ℕ :=
  digits base (thresholdAt bias) delta 0 delta

theorem appendEncode_eq (output : QString) (delta bias : ℕ) :
  appendEncode output delta bias = output ++ (integer bias delta).map encodeDigit
  := by
  unfold appendEncode integer
  rw [← encodeLoop_eq]
  rfl

theorem integer_whole (bias delta : ℕ) :
  IsWhole base (thresholdAt bias) 0 (integer bias delta)
  := isWhole_digits (thresholdAt_bounds bias) (Nat.le_refl _)

theorem integer_ne_nil (bias delta : ℕ) :
  integer bias delta ≠ []
  := by
  intro hnil
  have hwhole := integer_whole bias delta
  rw [hnil] at hwhole
  exact hwhole

theorem IsWhole.lt_base {t : ℕ → ℕ} (ht : ∀ k, 0 < t k ∧ t k < base) {ds : List ℕ} {k : ℕ}
    (h : IsWhole base t k ds) :
  ∀ d ∈ ds, d < base
  := by
  induction ds generalizing k with
  | nil => cases h
  | cons d ds ih =>
    rw [IsWhole] at h
    intro e he
    split_ifs at h with hlast
    · rw [h, List.mem_singleton] at he
      rw [he]
      exact Nat.lt_trans hlast (ht k).2
    · rcases List.mem_cons.mp he with rfl | he
      · exact h.1
      · exact ih h.2 e he

/-! ### Reading an integer -/

section Reading

variable {bias k w i : ℕ} {ds : List ℕ} {rest : QString}

theorem readInteger_cons {d : ℕ} (h : d < base) :
  readInteger bias (base * (k + 1)) w i (encodeDigit d :: rest)
    = if i + d * w ≤ maxUint then
        if d < thresholdAt bias k then some (i + d * w, rest)
        else if w * (base - thresholdAt bias k) ≤ maxUint then
          readInteger bias (base * (k + 1 + 1)) (w * (base - thresholdAt bias k)) (i + d * w) rest
        else none
      else none
  := by
  have hnext : base * (k + 1) + base = base * (k + 1 + 1) := (Nat.mul_succ _ _).symm
  rw [readInteger, digitValue_encodeDigit h, if_neg (Nat.not_le_of_lt h), hnext]
  unfold qMulOverflow qAddOverflow
  by_cases hi : i + d * w ≤ maxUint
  · have htmp : d * w ≤ maxUint := Nat.le_trans (Nat.le_add_left _ _) hi
    rw [if_pos htmp, if_pos hi]
    change (if i + d * w ≤ maxUint then some (i + d * w) else none).bind _ = _
    rw [if_pos hi]
    change (if d < thresholdAt bias k then _ else _) = _
    by_cases hlast : d < thresholdAt bias k
    · rw [if_pos hlast, if_pos hlast]
    · rw [if_neg hlast, if_neg hlast]
      change (if w * (base - thresholdAt bias k) ≤ maxUint then _ else none).bind _ = _
      split_ifs
      · rfl
      · rfl
  · rw [if_neg hi]
    by_cases htmp : d * w ≤ maxUint
    · rw [if_pos htmp]
      change (if i + d * w ≤ maxUint then some (i + d * w) else none).bind _ = _
      rw [if_neg hi]
      rfl
    · rw [if_neg htmp]
      rfl

/-- An integer is read, or a number overflows. -/
theorem readInteger_cases (h : IsWhole base (thresholdAt bias) k ds) :
  readInteger bias (base * (k + 1)) w i (ds.map encodeDigit ++ rest) = none
    ∨ readInteger bias (base * (k + 1)) w i (ds.map encodeDigit ++ rest)
      = some (i + w * value base (thresholdAt bias) k ds, rest)
  := by
  induction ds generalizing k w i with
  | nil => cases h
  | cons d ds ih =>
    have hlt := IsWhole.lt_base (thresholdAt_bounds bias) h d List.mem_cons_self
    have hvalue : i + w * value base (thresholdAt bias) k (d :: ds)
        = i + d * w
          + w * (base - thresholdAt bias k) * value base (thresholdAt bias) (k + 1) ds := by
      rw [value, Nat.mul_add, Nat.mul_comm w d, Nat.mul_assoc, Nat.add_assoc]
    rw [List.map_cons, List.cons_append, readInteger_cons hlt]
    rw [IsWhole] at h
    split_ifs with hi hlast hw
    · right
      rw [if_pos hlast] at h
      rw [h, value_singleton, Nat.mul_comm]
      rfl
    · rw [if_neg hlast] at h
      rw [hvalue]
      exact ih h.2
    · exact Or.inl rfl
    · exact Or.inl rfl

/-- An integer that is small enough is read. -/
theorem readInteger_small (h : IsWhole base (thresholdAt bias) k ds) {m : ℕ}
    (hm : w * value base (thresholdAt bias) k ds ≤ m) (hw : base * m ≤ maxUint)
    (hi : i + w * value base (thresholdAt bias) k ds ≤ maxUint) :
  readInteger bias (base * (k + 1)) w i (ds.map encodeDigit ++ rest)
    = some (i + w * value base (thresholdAt bias) k ds, rest)
  := by
  induction ds generalizing k w i with
  | nil => cases h
  | cons d ds ih =>
    have hlt := IsWhole.lt_base (thresholdAt_bounds bias) h d List.mem_cons_self
    have hmul : w * value base (thresholdAt bias) k (d :: ds)
        = d * w + w * (base - thresholdAt bias k) * value base (thresholdAt bias) (k + 1) ds := by
      rw [value, Nat.mul_add, Nat.mul_comm w d, Nat.mul_assoc]
    have hvalue : i + w * value base (thresholdAt bias) k (d :: ds)
        = i + d * w
          + w * (base - thresholdAt bias k) * value base (thresholdAt bias) (k + 1) ds := by
      rw [hmul, Nat.add_assoc]
    rw [hvalue] at hi ⊢
    rw [List.map_cons, List.cons_append, readInteger_cons hlt,
      if_pos (Nat.le_trans (Nat.le_add_right _ _) hi)]
    rw [IsWhole] at h
    split_ifs at h ⊢ with hlast hnext
    · rw [h, value, Nat.mul_zero, Nat.add_zero]
      rfl
    · apply ih h.2
      · rw [hmul] at hm
        exact Nat.le_trans (Nat.le_add_left _ _) hm
      · exact hi
    · -- The digit is not zero, so that its weight is not above the number.
      exfalso
      apply hnext
      have hd : 1 ≤ d := by
        have hpos := (thresholdAt_bounds bias k).1
        omega
      have hle : w ≤ m := by
        have hone := Nat.mul_le_mul_right w hd
        rw [Nat.one_mul] at hone
        rw [hmul] at hm
        exact Nat.le_trans hone (Nat.le_trans (Nat.le_add_right _ _) hm)
      calc w * (base - thresholdAt bias k)
          ≤ m * base := Nat.mul_le_mul hle (Nat.sub_le _ _)
        _ = base * m := Nat.mul_comm _ _
        _ ≤ maxUint := hw

/-- What is read of an integer that the encoder writes. -/
theorem readInteger_integer (bias i delta : ℕ) (rest : QString) :
  readInteger bias base 1 i ((integer bias delta).map encodeDigit ++ rest) = none
    ∨ readInteger bias base 1 i ((integer bias delta).map encodeDigit ++ rest)
      = some (i + delta, rest)
  := by
  have hcases : readInteger bias base 1 i ((integer bias delta).map encodeDigit ++ rest) = none
      ∨ readInteger bias base 1 i ((integer bias delta).map encodeDigit ++ rest)
        = some (i + 1 * value base (thresholdAt bias) 0 (integer bias delta), rest) :=
    readInteger_cases (integer_whole bias delta)
  rw [integer, value_digits, Nat.one_mul] at hcases
  exact hcases

theorem readInteger_integer_small {delta m : ℕ} (h : delta ≤ m) (hm : base * m ≤ maxUint)
    (hi : i + delta ≤ maxUint) :
  readInteger bias base 1 i ((integer bias delta).map encodeDigit ++ rest) = some (i + delta, rest)
  := by
  have hvalue : 1 * value base (thresholdAt bias) 0 (integer bias delta) = delta := by
    rw [integer, value_digits, Nat.one_mul]
  have hread : readInteger bias base 1 i ((integer bias delta).map encodeDigit ++ rest)
      = some (i + 1 * value base (thresholdAt bias) 0 (integer bias delta), rest) := by
    apply readInteger_small (integer_whole bias delta) _ hm
    · rw [hvalue]
      exact hi
    · rw [hvalue]
      exact h
  rw [hvalue] at hread
  exact hread

end Reading

/-! ### Integers in a row -/

/-- The integers of a label, where the bias of each one depends on those before it; `numpoints` is
the number of characters with the first one. -/
def integers : Bool → ℕ → ℕ → List ℕ → QString
  | _, _, _, [] => []
  | firsttime, bias, numpoints, delta :: deltas =>
    appendEncode [] delta bias
      ++ integers false (adapt delta numpoints firsttime) (numpoints + 1) deltas

theorem appendEncode_nil (delta bias : ℕ) :
  appendEncode [] delta bias = (integer bias delta).map encodeDigit
  := appendEncode_eq [] delta bias

/-- Each integer has a digit. -/
theorem length_integers (firsttime : Bool) (bias numpoints : ℕ) (deltas : List ℕ) :
  deltas.length ≤ (integers firsttime bias numpoints deltas).length
  := by
  induction deltas generalizing firsttime bias numpoints with
  | nil => exact Nat.le_refl _
  | cons delta deltas ih =>
    have hpos : 0 < (integer bias delta).length := List.length_pos_of_ne_nil (integer_ne_nil _ _)
    have hrest := ih false (adapt delta numpoints firsttime) (numpoints + 1)
    rw [integers, appendEncode_nil, List.length_append, List.length_map, List.length_cons]
    omega

theorem mem_integers {firsttime : Bool} {bias numpoints : ℕ} {deltas : List ℕ} {c : UInt16}
    (h : c ∈ integers firsttime bias numpoints deltas) :
  c ≠ 0x2d ∧ c < 0x80
  := by
  induction deltas generalizing firsttime bias numpoints with
  | nil => cases h
  | cons delta deltas ih =>
    rw [integers, appendEncode_nil, List.mem_append, List.mem_map] at h
    rcases h with ⟨d, hd, rfl⟩ | h
    · have hlt := IsWhole.lt_base (thresholdAt_bounds bias) (integer_whole bias delta) d hd
      exact (encodeDigit_spec ⟨d, hlt⟩).2
    · exact ih h

end QUrlIdna
