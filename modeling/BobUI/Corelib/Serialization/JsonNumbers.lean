import BobUI.Corelib.Serialization.JsonWriter
import BobUI.Corelib.Serialization.JsonParser
import Mathlib.Data.List.TakeDrop

/-!
# JSON numbers

The parser finds the end of the text of a number.  An integer is read back as that integer.  A
double is read back as an integer where it is one in the range of `qint64`, however large, and
as itself otherwise.
-/

namespace JsonParser

/-! ### The text of a number -/

/-- The parts of the text of a number. -/
structure NumberText (minus int frac exp : QByteArray) : Prop where
  minus : minus = [] ∨ minus = [0x2d]
  int : int = [0x30] ∨ int ≠ [] ∧ int.head? ≠ some 0x30 ∧ int.all isAsciiDigit = true
  frac : frac = [] ∨ ∃ digits, frac = 0x2e :: digits ∧ digits.all isAsciiDigit = true
  exp : exp = [] ∨ ∃ e sign digits, exp = e :: (sign ++ digits) ∧ (e = 0x65 ∨ e = 0x45)
    ∧ (sign = [] ∨ sign = [0x2d] ∨ sign = [0x2b]) ∧ digits ≠ [] ∧ digits.all isAsciiDigit = true

/-- A text that does not go on with a character of a number. -/
def EndsNumber (rest : QByteArray) : Prop :=
  ∀ c ∈ rest.head?, isAsciiDigit c = false ∧ c ≠ 0x2e ∧ c ≠ 0x65 ∧ c ≠ 0x45

variable {rest int frac exp : QByteArray}

theorem span_digits {digits : QByteArray} (h : digits.all isAsciiDigit = true)
    (hrest : ∀ c ∈ rest.head?, isAsciiDigit c = false) :
  (digits ++ rest).span isAsciiDigit = (digits, rest)
  := by
  rw [List.span_eq_takeWhile_dropWhile, List.takeWhile_append_of_pos (List.all_eq_true.mp h),
    List.dropWhile_append_of_pos (List.all_eq_true.mp h)]
  cases rest with
  | nil => rw [List.takeWhile_nil, List.dropWhile_nil, List.append_nil]
  | cons c rest =>
    have hc := hrest c rfl
    rw [List.takeWhile_cons_of_neg (by rw [hc]; decide),
      List.dropWhile_cons_of_neg (by rw [hc]; decide), List.append_nil]

theorem spanMinus_text {minus : QByteArray} (h : minus = [] ∨ minus = [0x2d])
    (hrest : ∀ c ∈ rest.head?, c ≠ 0x2d) :
  spanMinus (minus ++ rest) = (minus, rest)
  := by
  rcases h with rfl | rfl
  · cases rest with
    | nil => rfl
    | cons c rest => exact if_neg (hrest c rfl)
  · rfl

theorem spanInt_text
    (h : int = [0x30] ∨ int ≠ [] ∧ int.head? ≠ some 0x30 ∧ int.all isAsciiDigit = true)
    (hrest : ∀ c ∈ rest.head?, isAsciiDigit c = false) :
  spanInt (int ++ rest) = (int, rest)
  := by
  rcases h with rfl | ⟨hnil, hhead, hdigits⟩
  · rfl
  · cases int with
    | nil => exact absurd rfl hnil
    | cons c int =>
      have hc : c ≠ 0x30 := fun hc => hhead (congrArg some hc)
      rw [List.cons_append, spanInt, if_neg hc]
      exact span_digits hdigits hrest

theorem spanFrac_text
    (h : frac = [] ∨ ∃ digits, frac = 0x2e :: digits ∧ digits.all isAsciiDigit = true)
    (hrest : ∀ c ∈ rest.head?, isAsciiDigit c = false ∧ c ≠ 0x2e) :
  spanFrac (frac ++ rest) = (frac, rest)
  := by
  rcases h with rfl | ⟨digits, rfl, hdigits⟩
  · cases rest with
    | nil => rfl
    | cons c rest => exact if_neg (hrest c rfl).2
  · rw [List.cons_append, spanFrac, if_pos rfl,
      span_digits hdigits (fun c hc => (hrest c hc).1)]

theorem spanSign_text {sign : QByteArray} (h : sign = [] ∨ sign = [0x2d] ∨ sign = [0x2b])
    (hrest : ∀ c ∈ rest.head?, c ≠ 0x2d ∧ c ≠ 0x2b) :
  spanSign (sign ++ rest) = (sign, rest)
  := by
  rcases h with rfl | rfl | rfl
  · cases rest with
    | nil => rfl
    | cons c rest =>
      obtain ⟨hminus, hplus⟩ := hrest c rfl
      apply if_neg
      rw [Bool.or_eq_true, decide_eq_true_eq, decide_eq_true_eq]
      exact fun hc => hc.elim hminus hplus
  · rfl
  · rfl

theorem digit_ne {c x : UInt8} (h : isAsciiDigit c = true) (hx : isAsciiDigit x = false) :
  c ≠ x
  := by
  rintro rfl
  rw [h] at hx
  cases hx

theorem spanExp_text
    (h : exp = [] ∨ ∃ e sign digits, exp = e :: (sign ++ digits) ∧ (e = 0x65 ∨ e = 0x45)
      ∧ (sign = [] ∨ sign = [0x2d] ∨ sign = [0x2b]) ∧ digits ≠ []
      ∧ digits.all isAsciiDigit = true) (hrest : EndsNumber rest) :
  spanExp (exp ++ rest) = (exp, rest)
  := by
  rcases h with rfl | ⟨e, sign, digits, rfl, he, hsign, hnil, hdigits⟩
  · cases rest with
    | nil => rfl
    | cons c rest =>
      obtain ⟨-, -, he, hE⟩ := hrest c rfl
      apply if_neg
      rw [Bool.or_eq_true, decide_eq_true_eq, decide_eq_true_eq]
      exact fun hc => hc.elim he hE
  · have hspan : spanSign (sign ++ (digits ++ rest)) = (sign, digits ++ rest) := by
      apply spanSign_text hsign
      cases digits with
      | nil => exact absurd rfl hnil
      | cons d digits =>
        intro c hc
        cases hc
        rw [List.all_cons, Bool.and_eq_true] at hdigits
        exact ⟨digit_ne hdigits.1 rfl, digit_ne hdigits.1 rfl⟩
    have hexp : (decide (e = 0x65) || decide (e = 0x45)) = true := by
      rwa [Bool.or_eq_true, decide_eq_true_eq, decide_eq_true_eq]
    rw [List.cons_append, List.append_assoc, spanExp, if_pos hexp, hspan]
    dsimp only
    rw [span_digits hdigits (fun c hc => (hrest c hc).1), List.cons_append]

theorem head_exp
    (h : exp = [] ∨ ∃ e sign digits, exp = e :: (sign ++ digits) ∧ (e = 0x65 ∨ e = 0x45)
      ∧ (sign = [] ∨ sign = [0x2d] ∨ sign = [0x2b]) ∧ digits ≠ []
      ∧ digits.all isAsciiDigit = true) (hrest : EndsNumber rest) :
  ∀ c ∈ (exp ++ rest).head?, isAsciiDigit c = false ∧ c ≠ 0x2e
  := by
  intro c hc
  rcases h with rfl | ⟨e, sign, digits, rfl, he, -⟩
  · exact ⟨(hrest c hc).1, (hrest c hc).2.1⟩
  · cases hc
    rcases he with rfl | rfl
    · exact ⟨rfl, by decide⟩
    · exact ⟨rfl, by decide⟩

theorem head_frac (h : frac = [] ∨ ∃ digits, frac = 0x2e :: digits ∧ digits.all isAsciiDigit = true)
    (hrest : ∀ c ∈ rest.head?, isAsciiDigit c = false ∧ c ≠ 0x2e) :
  ∀ c ∈ (frac ++ rest).head?, isAsciiDigit c = false
  := by
  intro c hc
  rcases h with rfl | ⟨digits, rfl, -⟩
  · exact (hrest c hc).1
  · cases hc
    rfl

/-- The integer part of a number starts with a digit. -/
theorem head_int (h : int = [0x30] ∨ int ≠ [] ∧ int.head? ≠ some 0x30 ∧ int.all isAsciiDigit = true)
    (rest : QByteArray) :
  ∃ c tail, int ++ rest = c :: tail ∧ isAsciiDigit c = true
  := by
  rcases h with rfl | ⟨hnil, -, hdigits⟩
  · exact ⟨0x30, rest, rfl, rfl⟩
  · cases int with
    | nil => exact absurd rfl hnil
    | cons c int =>
      rw [List.all_cons, Bool.and_eq_true] at hdigits
      exact ⟨c, int ++ rest, rfl, hdigits.1⟩

variable {D : Type} (F : DoubleText D)

/-- The parser finds the parts of the text of a number. -/
theorem parseNumber_text {minus : QByteArray} (h : NumberText minus int frac exp)
    (hrest : EndsNumber rest) :
  parseNumber F (minus ++ int ++ frac ++ exp ++ rest)
    = (numberValue F (minus ++ int ++ frac ++ exp)
        (frac.tail.all (· = 0x30) && exp.isEmpty)).map (·, rest)
  := by
  have hminus : spanMinus (minus ++ (int ++ (frac ++ (exp ++ rest))))
      = (minus, int ++ (frac ++ (exp ++ rest))) := by
    apply spanMinus_text h.minus
    obtain ⟨d, tail, hd, hdigit⟩ := head_int h.int (frac ++ (exp ++ rest))
    rw [hd]
    intro c hc
    cases hc
    exact digit_ne hdigit rfl
  have hexp := head_exp h.exp hrest
  have hint := spanInt_text h.int (head_frac h.frac hexp)
  rw [parseNumber, List.append_assoc, List.append_assoc, List.append_assoc, hminus]
  dsimp only
  rw [hint]
  dsimp only
  rw [spanFrac_text h.frac hexp]
  dsimp only
  rw [spanExp_text h.exp hrest]
  dsimp only
  rw [List.append_assoc, List.append_assoc]
  cases numberValue F _ _ <;> rfl

/-! ### Integers -/

open JsonWriter (digits number)

/-- The value of decimal digits behind those of `n`. -/
def digitsValue (n : ℕ) (ds : QByteArray) : ℕ :=
  ds.foldl (fun (n : ℕ) c => 10 * n + (c.toNat - 0x30)) n

theorem digit_lt (n : ℕ) (h : n < 10) :
  isAsciiDigit (UInt8.ofNat (0x30 + n)) = true ∧ (UInt8.ofNat (0x30 + n)).toNat - 0x30 = n
    ∧ (n ≠ 0 → UInt8.ofNat (0x30 + n) ≠ 0x30)
  := by
  have hall : ∀ m : Fin 10, isAsciiDigit (UInt8.ofNat (0x30 + m.val)) = true
      ∧ (UInt8.ofNat (0x30 + m.val)).toNat - 0x30 = m.val
      ∧ (m.val ≠ 0 → UInt8.ofNat (0x30 + m.val) ≠ 0x30) := by
    decide
  exact hall ⟨n, h⟩

theorem digits_ne_nil (n : ℕ) :
  digits n ≠ []
  := by
  rw [digits]
  split
  · exact List.cons_ne_nil _ _
  · exact fun h => List.cons_ne_nil _ _ (List.append_eq_nil_iff.mp h).2

theorem digits_all (n : ℕ) :
  (digits n).all isAsciiDigit = true
  := by
  induction n using JsonWriter.digits.induct with
  | case1 n h =>
    rw [digits, if_pos h, List.all_cons, (digit_lt n h).1]
    rfl
  | case2 n h ih =>
    have hlast := (digit_lt (n % 10) (Nat.mod_lt _ (by decide))).1
    rw [digits, if_neg h, List.all_append, ih, List.all_cons, hlast]
    rfl

theorem digitsValue_digits (n : ℕ) :
  digitsValue 0 (digits n) = n
  := by
  induction n using JsonWriter.digits.induct with
  | case1 n h =>
    rw [digits, if_pos h]
    exact (Nat.zero_add _).trans (digit_lt n h).2.1
  | case2 n h ih =>
    have hlast := (digit_lt (n % 10) (Nat.mod_lt _ (by decide))).2.1
    unfold digitsValue at ih ⊢
    rw [digits, if_neg h, List.foldl_append, ih, List.foldl_cons, List.foldl_nil, hlast,
      Nat.div_add_mod]

theorem digits_head (n : ℕ) (h : n ≠ 0) :
  (digits n).head? ≠ some 0x30
  := by
  induction n using JsonWriter.digits.induct with
  | case1 n hlt =>
    rw [digits, if_pos hlt]
    exact fun hhead => (digit_lt n hlt).2.2 h (Option.some.inj hhead)
  | case2 n hlt ih =>
    rw [digits, if_neg hlt, List.head?_append_of_ne_nil _ (digits_ne_nil _)]
    apply ih
    omega

theorem digits_text (n : ℕ) :
  digits n = [0x30] ∨ digits n ≠ [] ∧ (digits n).head? ≠ some 0x30
    ∧ (digits n).all isAsciiDigit = true
  := by
  by_cases h : n = 0
  · left
    rw [h, digits]
    rfl
  · exact .inr ⟨digits_ne_nil n, digits_head n h, digits_all n⟩

/-- The minus of an integer. -/
def minusText (n : ℤ) : QByteArray :=
  if n < 0 then [0x2d] else []

theorem number_eq (n : ℤ) :
  number n = minusText n ++ digits n.natAbs ++ [] ++ []
  := by
  rw [List.append_nil, List.append_nil, number, minusText]
  split <;> rfl

theorem minusText_cases (n : ℤ) :
  minusText n = [] ∨ minusText n = [0x2d]
  := by
  unfold minusText
  split
  · exact .inr rfl
  · exact .inl rfl

theorem number_text (n : ℤ) :
  NumberText (minusText n) (digits n.natAbs) [] [] where
  minus := minusText_cases n
  int := digits_text n.natAbs
  frac := .inl rfl
  exp := .inl rfl

theorem spanMinus_number (n : ℤ) :
  spanMinus (number n) = (minusText n, digits n.natAbs)
  := by
  rw [number_eq, List.append_nil, List.append_nil]
  apply spanMinus_text (minusText_cases n)
  obtain ⟨c, tail, hc, hdigit⟩ := head_int (digits_text n.natAbs) []
  rw [List.append_nil] at hc
  rw [hc]
  intro d hd
  cases hd
  exact digit_ne hdigit rfl

/-- The range of `qint64`. -/
def InRange (n : ℤ) : Prop :=
  -2 ^ 63 ≤ n ∧ n < 2 ^ 63

theorem toLongLong_number {n : ℤ} (h : InRange n) :
  toLongLong (number n) = some n
  := by
  have hvalue : (if (minusText n).isEmpty then (digitsValue 0 (digits n.natAbs) : ℤ)
      else -(digitsValue 0 (digits n.natAbs) : ℤ)) = n := by
    rw [digitsValue_digits, minusText]
    split
    next hneg => rw [List.isEmpty_cons, if_neg Bool.false_ne_true]; omega
    next hneg => rw [List.isEmpty_nil, if_pos rfl]; omega
  have hdigits : ((digits n.natAbs).isEmpty || !(digits n.natAbs).all isAsciiDigit) = false := by
    rw [digits_all, Bool.not_true, Bool.or_false, List.isEmpty_eq_false_iff]
    exact digits_ne_nil _
  rw [toLongLong, spanMinus_number]
  dsimp only
  rw [hdigits, if_neg Bool.false_ne_true]
  unfold digitsValue at hvalue
  rw [hvalue, if_pos]
  rw [Bool.and_eq_true, decide_eq_true_eq, decide_eq_true_eq]
  exact h

/-- An integer is read back. -/
theorem parseNumber_number {n : ℤ} (h : InRange n) (hrest : EndsNumber rest) :
  parseNumber F (number n ++ rest) = .ok (.integer n, rest)
  := by
  have hparse := parseNumber_text F (number_text n) hrest
  rw [← number_eq] at hparse
  rw [hparse, numberValue, List.tail_nil, List.all_nil, List.isEmpty_nil, Bool.and_true,
    if_pos rfl, toLongLong_number h]
  rfl

end JsonParser

/-! ### Doubles -/

/-- What the writer and the parser rely on: the text of a finite double is that of a number, and
read back it is the double; the integer that a text or a double converts to is equal to the
double. -/
structure DoubleText.Exact {D : Type} (F : DoubleText D) : Prop where
  number_text : ∀ d, F.isFinite d = true → ∃ minus int frac exp,
    JsonParser.NumberText minus int frac exp ∧ F.number d = minus ++ int ++ frac ++ exp
  toDouble_number : ∀ d, F.isFinite d = true → F.toDouble (F.number d) = some d
  toLongLong_number : ∀ d n, F.isFinite d = true → JsonParser.toLongLong (F.number d) = some n →
    (F.convertDoubleTo d true).isSome = true ∧ F.eq d (F.ofInteger n) = true
  convertDoubleTo : ∀ d n, F.convertDoubleTo d true = some n → F.eq d (F.ofInteger n) = true
  eq_self : ∀ d, F.isFinite d = true → F.eq d d = true

namespace JsonParser

variable {D : Type} (F : DoubleText D)

theorem toLongLong_of_not_digit {minus text : QByteArray} (hminus : minus = [] ∨ minus = [0x2d])
    (hhead : ∀ c ∈ text.head?, c ≠ 0x2d) {c : UInt8} (hc : c ∈ text)
    (hdigit : isAsciiDigit c = false) :
  toLongLong (minus ++ text) = none
  := by
  have hall : text.all isAsciiDigit = false := by
    rw [List.all_eq_false]
    exact ⟨c, hc, by rw [hdigit]; decide⟩
  rw [toLongLong, spanMinus_text hminus hhead]
  dsimp only
  rw [hall, Bool.not_false, Bool.or_true, if_pos rfl]

/-- A text with a fraction or an exponent is not that of an integer. -/
theorem toLongLong_text {minus int frac exp : QByteArray} (h : NumberText minus int frac exp)
    (hint : (frac.tail.all (· = 0x30) && exp.isEmpty) = false) :
  toLongLong (minus ++ int ++ frac ++ exp) = none
  := by
  have hhead : ∀ c ∈ (int ++ (frac ++ exp)).head?, c ≠ 0x2d := by
    obtain ⟨d, tail, hd, hdigit⟩ := head_int h.int (frac ++ exp)
    rw [hd]
    intro c hc
    cases hc
    exact digit_ne hdigit rfl
  rw [List.append_assoc, List.append_assoc]
  rcases h.frac with rfl | ⟨digits, rfl, -⟩
  · rcases h.exp with rfl | ⟨e, sign, digits, rfl, he, -⟩
    · cases hint
    · apply toLongLong_of_not_digit h.minus hhead (c := e)
      · rw [List.nil_append]
        exact List.mem_append_right _ List.mem_cons_self
      · rcases he with rfl | rfl <;> rfl
  · apply toLongLong_of_not_digit h.minus hhead (c := 0x2e)
    · exact List.mem_append_right _ List.mem_cons_self
    · rfl

/-- The value that the parser makes of the text of a double. -/
def parsedDouble (d : D) : JsonValue D :=
  match toLongLong (F.number d) with
  | some n => .integer n
  | none =>
    match F.convertDoubleTo d true with
    | some n => .integer n
    | none => .double d

variable {F}

theorem parseNumber_double (hF : F.Exact) {d : D} (h : F.isFinite d = true) {rest : QByteArray}
    (hrest : EndsNumber rest) :
  parseNumber F (F.number d ++ rest) = .ok (parsedDouble F d, rest)
  := by
  obtain ⟨minus, int, frac, exp, htext, hnumber⟩ := hF.number_text d h
  have hparse := parseNumber_text F htext hrest
  have hdouble := hF.toDouble_number d h
  have hint : (if (frac.tail.all (· = 0x30) && exp.isEmpty) then toLongLong (F.number d) else none)
      = toLongLong (F.number d) := by
    split
    next => rfl
    next hint =>
      rw [hnumber]
      exact (toLongLong_text htext (Bool.not_eq_true _ |>.mp hint)).symm
  rw [← hnumber] at hparse
  rw [hparse, numberValue, hint, parsedDouble]
  cases toLongLong (F.number d) with
  | some n => rfl
  | none =>
    rw [hdouble]
    dsimp only
    cases F.convertDoubleTo d true <;> rfl

/-- A double is read back as itself unless it converts to an integer. -/
theorem parsedDouble_eq (hF : F.Exact) {d : D} (h : F.isFinite d = true) :
  F.convertDoubleTo d true = none ∧ parsedDouble F d = .double d
    ∨ (F.convertDoubleTo d true).isSome = true
      ∧ ∃ n, parsedDouble F d = .integer n ∧ F.eq d (F.ofInteger n) = true
  := by
  unfold parsedDouble
  cases htext : toLongLong (F.number d) with
  | some n =>
    obtain ⟨hsome, heq⟩ := hF.toLongLong_number d n h htext
    exact .inr ⟨hsome, n, rfl, heq⟩
  | none =>
    cases hconvert : F.convertDoubleTo d true with
    | some n => exact .inr ⟨rfl, n, rfl, hF.convertDoubleTo d n hconvert⟩
    | none => exact .inl ⟨rfl, rfl⟩

end JsonParser
