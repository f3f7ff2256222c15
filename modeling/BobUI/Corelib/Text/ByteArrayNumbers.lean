import BobUI.Corelib.Text.Strings
import Mathlib.Data.List.DropRight
import Mathlib.Data.List.TakeDrop
import Mathlib.Algebra.Order.Group.Int

/-!
# Numbers in byte arrays

`QByteArrayView::trimmed`, and `QByteArrayView::toLong` with the functions of `qlocale.cpp` and
`qlocale_tools.cpp` that it calls, where `long` has 64 bits.
-/

namespace QByteArray

/-! ### Spaces -/

def ascii_isspace (c : UInt8) : Bool :=
  c = 0x20 || (0x09 ≤ c && c ≤ 0x0d)

/-- `trimmed`: the octets without the spaces at both ends. -/
def trimmed (view : QByteArray) : QByteArray :=
  (view.rdropWhile ascii_isspace).dropWhile ascii_isspace

variable {text digits : QByteArray}

/-- Spaces around octets that neither begin nor end with one are trimmed. -/
theorem trimmed_append {before after : QByteArray} (hbefore : ∀ c ∈ before, ascii_isspace c)
    (htext : ∀ c ∈ text, ¬ ascii_isspace c) (hafter : ∀ c ∈ after, ascii_isspace c) :
  trimmed (before ++ text ++ after) = text
  := by
  have hright : (before ++ text ++ after).rdropWhile ascii_isspace
      = (before ++ text).rdropWhile ascii_isspace := by
    rw [List.rdropWhile, List.reverse_append, List.dropWhile_append_of_pos (by
      intro c hc
      exact hafter c (List.mem_reverse.mp hc))]
    rfl
  rw [trimmed, hright]
  cases hlast : text.getLast? with
  | none =>
    rw [List.getLast?_eq_none_iff] at hlast
    subst hlast
    rw [List.append_nil, List.rdropWhile_eq_nil_iff.mpr hbefore]
    rfl
  | some c =>
    obtain ⟨init, rfl⟩ := List.getLast?_eq_some_iff.mp hlast
    have hc : ¬ ascii_isspace c := htext c (by simp)
    rw [← List.append_assoc, List.rdropWhile_concat_neg _ _ _ hc, List.append_assoc,
      List.dropWhile_append_of_pos hbefore]
    cases init with
    | nil => exact List.dropWhile_cons_of_neg hc
    | cons first init => exact List.dropWhile_cons_of_neg (htext first (by simp))

/-! ### Digits -/

def isAsciiDigit (c : UInt8) : Bool :=
  0x30 ≤ c && c ≤ 0x39

def isDigitForBase (d : UInt8) (base : ℕ) : Bool :=
  if d < 0x30 then false
  else if d.toNat - 0x30 < min base 10 then true
  else if base > 10 then
    let lower := d ||| 0x20
    0x61 ≤ lower && lower.toNat < 0x61 + base - 10
  else false

/-- The value of a digit. -/
def digitValue (d : UInt8) : ℕ :=
  if d ≤ 0x39 then d.toNat - 0x30 else (d ||| 0x20).toNat - 0x61 + 10

/-- The number that digits denote. -/
def digitsValue (base : ℕ) (digits : QByteArray) : ℕ :=
  digits.foldl (fun n d => base * n + digitValue d) 0

/-! ### Conversion -/

/-- Detect base if 0 and, if base is hex or bin, skip over 0x/0b prefixes. -/
def scanPrefix (p : QByteArray) (base : ℕ) : QByteArray × ℕ :=
  match p with
  | [] => (p, base)
  | first :: rest =>
    if !isAsciiDigit first then (p, base)
    else if first = 0x30 then
      match rest with
      | [] => (p, if base = 0 then 8 else base)
      | x_or_b :: next =>
        if x_or_b = 0x62 || x_or_b = 0x42 then
          let base := if base = 0 then 2 else base
          (if base = 2 then next else p, base)
        else if x_or_b = 0x78 || x_or_b = 0x58 then
          let base := if base = 0 then 16 else base
          (if base = 16 then next else p, base)
        else (p, if base = 0 then 8 else base)
    else (p, if base = 0 then 10 else base)

/-- The number at the beginning of a text, and what follows it. -/
def qstrntoll (text : QByteArray) (base : ℕ) : Option (ℤ × QByteArray) :=
  let p := text.dropWhile ascii_isspace
  let negate := p.head? = some 0x2d
  let p := if negate ∨ p.head? = some 0x2b then p.tail else p
  let (next, base) := scanPrefix p base
  if base = 0 || !next.head?.any (isDigitForBase · base) then none
  else
    let (digits, rest) := next.span (isDigitForBase · base)
    let n := digitsValue base digits
    if n < 2 ^ 63 then some (if negate then -n else n, rest)
    else if negate ∧ n = 2 ^ 63 then some (-2 ^ 63, rest)
    else none

/-- `checkParsed`: nothing but spaces follows the number, up to a NUL. -/
def checkParsed (rest : QByteArray) : Bool :=
  (rest.dropWhile ascii_isspace).head?.all (· = 0)

/-- `QByteArrayView::toLong`, which returns 0 where the conversion fails. -/
def toLong (text : QByteArray) (base : ℕ) : ℤ :=
  match qstrntoll text base with
  | none => 0
  | some (n, rest) => if checkParsed rest then n else 0

/-- The number at the beginning of a text without a minus sign, and what follows it. -/
def qstrntoull (text : QByteArray) (base : ℕ) : Option (ℕ × QByteArray) :=
  let p := text.dropWhile ascii_isspace
  if p = [] ∨ p.head? = some 0x2d then none
  else
    let (next, base) := scanPrefix (if p.head? = some 0x2b then p.tail else p) base
    if base = 0 then none
    else
      let (digits, rest) := next.span (isDigitForBase · base)
      if digits = [] ∨ 2 ^ 64 ≤ digitsValue base digits then none
      else some (digitsValue base digits, rest)

/-- `bytearrayToUnsLongLong`. -/
def toULongLong (text : QByteArray) (base : ℕ) : Option ℕ :=
  match qstrntoull text base with
  | none => none
  | some (n, rest) => if checkParsed rest then some n else none

/-! ### Hexadecimal numbers -/

theorem isDigitForBase_cases (d : UInt8) :
  isDigitForBase d 16 = true →
    ¬ ascii_isspace d ∧ d ≠ 0x2d ∧ d ≠ 0x2b ∧ d ≠ 0x3b ∧ d ≠ 0x0d ∧ d ≠ 0x0a ∧ d ≠ 0x78 ∧ d ≠ 0x58
  := by
  have hoctets : ∀ n : Fin 256, isDigitForBase (UInt8.ofNat n) 16 = true →
      ¬ ascii_isspace (UInt8.ofNat n) ∧ UInt8.ofNat n ≠ 0x2d ∧ UInt8.ofNat n ≠ 0x2b
        ∧ UInt8.ofNat n ≠ 0x3b ∧ UInt8.ofNat n ≠ 0x0d ∧ UInt8.ofNat n ≠ 0x0a
        ∧ UInt8.ofNat n ≠ 0x78 ∧ UInt8.ofNat n ≠ 0x58 := by
    set_option maxRecDepth 10000 in
    decide
  have h := hoctets ⟨d.toNat, UInt8.toNat_lt d⟩
  rw [UInt8.ofNat_toNat] at h
  exact h

/-- A prefix is no part of a hexadecimal number without one. -/
theorem scanPrefix_digits (h : ∀ d ∈ digits, isDigitForBase d 16 = true) :
  scanPrefix digits 16 = (digits, 16)
  := by
  cases digits with
  | nil => rfl
  | cons first rest =>
    unfold scanPrefix
    dsimp only
    split
    next => rfl
    next =>
      split
      next =>
        cases rest with
        | nil => rfl
        | cons x_or_b next =>
          have hx := isDigitForBase_cases x_or_b (h x_or_b (by simp))
          dsimp only
          split
          next => rfl
          next =>
            rw [if_neg]
            · rfl
            · rw [Bool.or_eq_true, decide_eq_true_eq, decide_eq_true_eq]
              rintro (heq | heq)
              · exact hx.2.2.2.2.2.2.1 heq
              · exact hx.2.2.2.2.2.2.2 heq
      next => rfl

/-- Hexadecimal digits are converted to the number they denote. -/
theorem toLong_digits (hne : digits ≠ []) (h : ∀ d ∈ digits, isDigitForBase d 16 = true)
    (hlt : digitsValue 16 digits < 2 ^ 63) :
  toLong digits 16 = digitsValue 16 digits
  := by
  obtain ⟨first, rest, rfl⟩ := List.exists_cons_of_ne_nil hne
  have hdigit := h first List.mem_cons_self
  obtain ⟨hspace, hminus, hplus, -⟩ := isDigitForBase_cases first hdigit
  have hspan : (first :: rest).span (isDigitForBase · 16) = (first :: rest, []) := by
    rw [List.span_eq_takeWhile_dropWhile, List.takeWhile_eq_self_iff.mpr h,
      List.dropWhile_eq_nil_iff.mpr h]
  have hsign : ¬ ((first :: rest).head? = some 0x2d ∨ (first :: rest).head? = some 0x2b) := by
    simp [hminus, hplus]
  rw [toLong, qstrntoll, List.dropWhile_cons_of_neg hspace]
  dsimp only
  rw [if_neg hsign, scanPrefix_digits h]
  dsimp only
  rw [if_neg (by simp [hdigit]), hspan]
  dsimp only
  rw [if_pos hlt, if_neg (by simp [hminus])]
  rfl

theorem toULongLong_digits (hne : digits ≠ []) (h : ∀ d ∈ digits, isDigitForBase d 16 = true)
    (hlt : digitsValue 16 digits < 2 ^ 64) :
  toULongLong digits 16 = some (digitsValue 16 digits)
  := by
  obtain ⟨first, rest, rfl⟩ := List.exists_cons_of_ne_nil hne
  have hdigit := h first List.mem_cons_self
  obtain ⟨hspace, hminus, hplus, -⟩ := isDigitForBase_cases first hdigit
  have hspan : (first :: rest).span (isDigitForBase · 16) = (first :: rest, []) := by
    rw [List.span_eq_takeWhile_dropWhile, List.takeWhile_eq_self_iff.mpr h,
      List.dropWhile_eq_nil_iff.mpr h]
  have hsign : ¬ (first :: rest = [] ∨ (first :: rest).head? = some 0x2d) := by
    simp [hminus]
  have hplus' : ¬ (first :: rest).head? = some 0x2b := by
    simp [hplus]
  have hrange : ¬ (first :: rest = [] ∨ 2 ^ 64 ≤ digitsValue 16 (first :: rest)) := by
    rw [not_or]
    exact ⟨hne, Nat.not_le_of_lt hlt⟩
  rw [toULongLong, qstrntoull, List.dropWhile_cons_of_neg hspace]
  dsimp only
  rw [if_neg hsign, if_neg hplus', scanPrefix_digits h]
  dsimp only
  rw [if_neg (show ¬ 16 = 0 by decide), hspan]
  dsimp only
  rw [if_neg hrange]
  rfl

/-! ### Texts that denote a number other than 0 -/

/-- Spaces, a sign, a prefix and digits, and then spaces up to a NUL or the end: a text that the
conversion of hexadecimal numbers reads as a number other than 0. -/
def NonzeroNumber (text : QByteArray) : Prop :=
  ∃ spaces sign before digits rest, text = spaces ++ (sign ++ (before ++ (digits ++ rest)))
    ∧ (∀ c ∈ spaces, ascii_isspace c)
    ∧ (sign = [] ∨ sign = [0x2b] ∨ sign = [0x2d])
    ∧ (before = [] ∨ before = [0x30, 0x78] ∨ before = [0x30, 0x58])
    ∧ (∀ d ∈ digits, isDigitForBase d 16 = true)
    ∧ digitsValue 16 digits ≠ 0
    ∧ (digitsValue 16 digits < 2 ^ 63 ∨ sign = [0x2d] ∧ digitsValue 16 digits = 2 ^ 63)
    ∧ checkParsed rest = true

theorem scanPrefix_eq (p : QByteArray) :
  (scanPrefix p 16).2 = 16
    ∧ ∃ before, p = before ++ (scanPrefix p 16).1
      ∧ (before = [] ∨ before = [0x30, 0x78] ∨ before = [0x30, 0x58])
  := by
  have hnone : p = [] ++ p ∧ (([] : QByteArray) = [] ∨ ([] : QByteArray) = [0x30, 0x78]
      ∨ ([] : QByteArray) = [0x30, 0x58]) :=
    ⟨rfl, Or.inl rfl⟩
  unfold scanPrefix
  split
  · exact ⟨rfl, [], hnone⟩
  next first rest =>
    split
    · exact ⟨rfl, [], hnone⟩
    · split
      next hzero =>
        split
        · exact ⟨rfl, [], hnone⟩
        next x_or_b next =>
          split
          · exact ⟨rfl, [], hnone⟩
          · split
            next hx =>
              rw [Bool.or_eq_true, decide_eq_true_eq, decide_eq_true_eq] at hx
              refine ⟨rfl, [0x30, x_or_b], ?_, ?_⟩
              · rw [hzero]
                rfl
              · rcases hx with rfl | rfl
                · exact Or.inr (Or.inl rfl)
                · exact Or.inr (Or.inr rfl)
            · exact ⟨rfl, [], hnone⟩
      · exact ⟨rfl, [], hnone⟩

/-- A sign is cut off a text. -/
theorem sign_eq (p : QByteArray) :
  ∃ sign, p = sign ++ (if p.head? = some 0x2d ∨ p.head? = some 0x2b then p.tail else p)
    ∧ (sign = [] ∨ sign = [0x2b] ∨ sign = [0x2d]) ∧ (p.head? = some 0x2d ↔ sign = [0x2d])
  := by
  cases p with
  | nil => exact ⟨[], rfl, Or.inl rfl, by simp⟩
  | cons c p =>
    simp only [List.head?_cons, List.tail_cons, Option.some_inj]
    by_cases h : c = 0x2d ∨ c = 0x2b
    · rw [if_pos h]
      refine ⟨[c], rfl, ?_, ?_⟩
      · rcases h with rfl | rfl
        · exact Or.inr (Or.inr rfl)
        · exact Or.inr (Or.inl rfl)
      · rw [List.cons.injEq, and_iff_left rfl]
    · rw [if_neg h]
      refine ⟨[], rfl, Or.inl rfl, ?_⟩
      rw [not_or] at h
      simp [h.1]

/-- A text that is read as a number other than 0 consists of the parts of one. -/
theorem NonzeroNumber.of_toLong (h : toLong text 16 ≠ 0) :
  NonzeroNumber text
  := by
  rw [toLong, qstrntoll] at h
  dsimp only at h
  obtain ⟨sign, hp, hsign, hminus⟩ := sign_eq (text.dropWhile ascii_isspace)
  generalize (if (text.dropWhile ascii_isspace).head? = some 0x2d
      ∨ (text.dropWhile ascii_isspace).head? = some 0x2b
    then (text.dropWhile ascii_isspace).tail else text.dropWhile ascii_isspace) = q at h hp
  obtain ⟨hbase, before, hq, hbefore⟩ := scanPrefix_eq q
  rw [hbase] at h
  generalize (scanPrefix q 16).1 = next at h hq
  rw [List.span_eq_takeWhile_dropWhile] at h
  dsimp only at h
  have hnext := (List.takeWhile_append_dropWhile (p := (isDigitForBase · 16)) (l := next)).symm
  have hdigit : ∀ d ∈ next.takeWhile (isDigitForBase · 16), isDigitForBase d 16 = true :=
    fun d hd => List.mem_takeWhile_imp (p := (isDigitForBase · 16)) hd
  have htext : text = text.takeWhile ascii_isspace ++ (sign ++ (before ++ next)) := by
    rw [← hq, ← hp, List.takeWhile_append_dropWhile]
  have hspaces : ∀ c ∈ text.takeWhile ascii_isspace, ascii_isspace c :=
    fun c hc => List.mem_takeWhile_imp hc
  rw [hnext] at htext
  -- Only a number in range, with nothing but spaces behind it, is not read as 0.
  split at h
  · exact absurd rfl h
  next n rest hnumber =>
    split at h
    next hrest =>
      split at hnumber
      · cases hnumber
      · split at hnumber
        next hlt =>
          cases hnumber
          refine ⟨_, sign, before, _, _, htext, hspaces, hsign, hbefore, hdigit, ?_,
            Or.inl hlt, hrest⟩
          intro hzero
          rw [hzero] at h
          split at h
          · exact h rfl
          · exact h rfl
        · split at hnumber
          next hmin =>
            cases hnumber
            refine ⟨_, sign, before, _, _, htext, hspaces, hsign, hbefore, hdigit, ?_,
              Or.inr ⟨hminus.mp hmin.1, hmin.2⟩, hrest⟩
            rw [hmin.2]
            decide
          · cases hnumber
    · exact absurd rfl h

theorem checkParsed_head {rest : QByteArray} (h : checkParsed rest = true) {c : UInt8}
    (hc : rest.head? = some c) :
  isDigitForBase c 16 = false
  := by
  cases rest with
  | nil => cases hc
  | cons d rest =>
    rw [List.head?_cons, Option.some_inj] at hc
    subst hc
    rw [← Bool.not_eq_true]
    intro hdigit
    have hspace := (isDigitForBase_cases d hdigit).1
    rw [checkParsed, List.dropWhile_cons_of_neg hspace, List.head?_cons, Option.all_some,
      decide_eq_true_eq] at h
    rw [h] at hdigit
    revert hdigit
    decide

theorem scanPrefix_number {before rest : QByteArray}
    (hbefore : before = [] ∨ before = [0x30, 0x78] ∨ before = [0x30, 0x58])
    (hdigit : ∀ d ∈ digits, isDigitForBase d 16 = true) (hne : digitsValue 16 digits ≠ 0) :
  scanPrefix (before ++ (digits ++ rest)) 16 = (digits ++ rest, 16)
  := by
  rcases hbefore with rfl | rfl | rfl
  · cases digits with
    | nil => exact absurd rfl hne
    | cons first digits =>
      rw [List.nil_append, List.cons_append, scanPrefix.eq_def]
      dsimp only
      split
      · rfl
      · split
        next hzero =>
          cases digits with
          | nil =>
            rw [hzero] at hne
            exact absurd rfl hne
          | cons d digits =>
            obtain ⟨-, -, -, -, -, -, hx, hX⟩ := isDigitForBase_cases d
              (hdigit d (List.mem_cons_of_mem _ List.mem_cons_self))
            rw [List.cons_append]
            dsimp only
            split
            · rfl
            · rw [if_neg]
              · rfl
              · rw [Bool.or_eq_true, decide_eq_true_eq, decide_eq_true_eq, not_or]
                exact ⟨hx, hX⟩
        · rfl
  · rfl
  · rfl

/-- A text with the parts of a number other than 0 is read as one. -/
theorem NonzeroNumber.toLong_ne (h : NonzeroNumber text) :
  toLong text 16 ≠ 0
  := by
  obtain ⟨spaces, sign, before, digits, rest, rfl, hspaces, hsign, hbefore, hdigit, hne,
    hrange, hrest⟩ := h
  have hfirst : ∃ c q, before ++ (digits ++ rest) = c :: q ∧ isDigitForBase c 16 = true := by
    rcases hbefore with rfl | rfl | rfl
    · cases digits with
      | nil => exact absurd rfl hne
      | cons c digits => exact ⟨c, digits ++ rest, rfl, hdigit c List.mem_cons_self⟩
    · exact ⟨_, _, rfl, by decide⟩
    · exact ⟨_, _, rfl, by decide⟩
  have hscan : scanPrefix (before ++ (digits ++ rest)) 16 = (digits ++ rest, 16) :=
    scanPrefix_number hbefore hdigit hne
  generalize before ++ (digits ++ rest) = q at hfirst hscan
  obtain ⟨c, q, rfl, hc⟩ := hfirst
  obtain ⟨hspace, hminus, hplus, -⟩ := isDigitForBase_cases c hc
  have hp : (spaces ++ (sign ++ c :: q)).dropWhile ascii_isspace = sign ++ c :: q := by
    rw [List.dropWhile_append_of_pos hspaces]
    rcases hsign with rfl | rfl | rfl
    · exact List.dropWhile_cons_of_neg hspace
    · rfl
    · rfl
  have hunsigned : (if (sign ++ c :: q).head? = some 0x2d ∨ (sign ++ c :: q).head? = some 0x2b
      then (sign ++ c :: q).tail else sign ++ c :: q) = c :: q := by
    rcases hsign with rfl | rfl | rfl
    · rw [List.nil_append, if_neg]
      simp [hminus, hplus]
    · rfl
    · rfl
  have hspan : (digits ++ rest).span (isDigitForBase · 16) = (digits, rest) := by
    rw [List.span_eq_takeWhile_dropWhile, List.takeWhile_append_of_pos hdigit,
      List.dropWhile_append_of_pos hdigit]
    cases rest with
    | nil => simp
    | cons d rest =>
      have hd : ¬ isDigitForBase d 16 = true := by
        rw [checkParsed_head hrest List.head?_cons]
        apply Bool.noConfusion
      have htake : (d :: rest).takeWhile (isDigitForBase · 16) = [] :=
        List.takeWhile_cons_of_neg hd
      have hdrop : (d :: rest).dropWhile (isDigitForBase · 16) = d :: rest :=
        List.dropWhile_cons_of_neg hd
      rw [htake, hdrop, List.append_nil]
  have hhead : (digits ++ rest).head?.any (isDigitForBase · 16) = true := by
    cases digits with
    | nil => exact absurd rfl hne
    | cons d digits => exact hdigit d List.mem_cons_self
  have hnegate : (sign ++ c :: q).head? = some 0x2d ↔ sign = [0x2d] := by
    rcases hsign with rfl | rfl | rfl
    · simp [hminus]
    · simp
    · simp
  rw [toLong, qstrntoll]
  dsimp only
  rw [hp, hunsigned, hscan]
  dsimp only
  rw [hhead, hspan, if_neg (by simp)]
  dsimp only
  by_cases hlt : digitsValue 16 digits < 2 ^ 63
  · rw [if_pos hlt]
    dsimp only
    rw [if_pos hrest]
    split
    · omega
    · omega
  · have hmin := hrange.resolve_left hlt
    rw [if_neg hlt, if_pos ⟨hnegate.mpr hmin.1, hmin.2⟩]
    dsimp only
    rw [if_pos hrest]
    decide

/-- The conversion of a hexadecimal number gives 0 except for the texts of other numbers. -/
theorem toLong_ne_zero_iff :
  toLong text 16 ≠ 0 ↔ NonzeroNumber text
  := ⟨NonzeroNumber.of_toLong, NonzeroNumber.toLong_ne⟩

end QByteArray
