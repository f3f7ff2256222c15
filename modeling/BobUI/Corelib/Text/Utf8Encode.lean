import BobUI.Corelib.Text.Utf8

/-!
# Encoding UTF-8

`QUtf8Functions::toUtf8`, and that `fromUtf8` reads what it writes.  A surrogate that is not
part of a pair has no octets.
-/

namespace QUtf8

/-- `QChar::isHighSurrogate`. -/
def isHighSurrogate (u : UInt16) : Bool :=
  u &&& 0xfc00 = 0xd800

/-- `QChar::isLowSurrogate`. -/
def isLowSurrogate (u : UInt16) : Bool :=
  u &&& 0xfc00 = 0xdc00

/-- `QChar::surrogateToUcs4`. -/
def surrogateToUcs4 (high low : UInt16) : ℕ :=
  high.toNat * 0x400 + low.toNat - 0x35fdc00

/-- The code point of the code units of a character. -/
def toUcs4 : QString → ℕ
  | [high, low] => surrogateToUcs4 high low
  | units => (units.headD 0).toNat

/-- The octets of the character that starts with the code unit `u`, in front of the code units
`src`, and what is left of these; nothing for a surrogate without its other half. -/
def toUtf8 (u : UInt16) (src : QString) : Option (QByteArray × QString) :=
  if u < 0x80 then some ([u.toUInt8], src)
  else if u < 0x0800 then
    some ([(0xc0 : UInt8) ||| (u >>> 6).toUInt8, (0x80 : UInt8) ||| (u.toUInt8 &&& 0x3f)], src)
  else if !isSurrogate u.toNat then
    some ([(0xe0 : UInt8) ||| (u >>> 12).toUInt8, (0x80 : UInt8) ||| ((u >>> 6).toUInt8 &&& 0x3f),
      (0x80 : UInt8) ||| (u.toUInt8 &&& 0x3f)], src)
  else
    match src with
    | [] => none
    | low :: src =>
      if !isHighSurrogate u || !isLowSurrogate low then none
      else
        let ucs4 := surrogateToUcs4 u low
        some ([(0xf0 : UInt8) ||| (UInt8.ofNat (ucs4 >>> 18) &&& 0xf),
          (0x80 : UInt8) ||| (UInt8.ofNat (ucs4 >>> 12) &&& 0x3f),
          (0x80 : UInt8) ||| (UInt8.ofNat (ucs4 >>> 6) &&& 0x3f), (0x80 : UInt8) ||| (UInt8.ofNat ucs4 &&& 0x3f)], src)

variable {u : UInt16} {src src' : QString} {bytes : QByteArray}

theorem toUtf8_length (h : toUtf8 u src = some (bytes, src')) :
  src'.length ≤ src.length
  := by
  unfold toUtf8 at h
  split at h
  next => cases h; exact Nat.le_refl _
  next =>
    split at h
    next => cases h; exact Nat.le_refl _
    next =>
      split at h
      next => cases h; exact Nat.le_refl _
      next =>
        cases src with
        | nil => cases h
        | cons low src =>
          dsimp only at h
          split at h
          next => cases h
          next => cases h; exact Nat.le_succ _

theorem toUtf8_ascii (h : u < 0x80) (src : QString) :
  toUtf8 u src = some ([u.toUInt8], src)
  := by
  unfold toUtf8
  exact if_pos h

/-! ### The octets of a sequence -/

theorem forall_octet {p : UInt8 → Prop} (h : ∀ n : Fin 256, p (UInt8.ofNat n.val)) (b : UInt8) :
  p b
  := by
  have hb := h ⟨b.toNat, b.toNat_lt⟩
  rwa [UInt8.ofNat_toNat] at hb

/-- The octets that are built from the bits of a character. -/
theorem built_octet (b : UInt8) :
  isContinuationByte (0x80 ||| (b &&& 0x3f)) = true
    ∧ ((0x80 ||| (b &&& 0x3f)) &&& 0x3f).toNat = b.toNat % 0x40
    ∧ 0x80 ≤ (0xc0 : UInt8) ||| b ∧ 0x80 ≤ (0xe0 : UInt8) ||| b ∧ 0x80 ≤ (0xf0 : UInt8) ||| b
    ∧ 0x80 ≤ (0x80 : UInt8) ||| b
  := by
  revert b
  apply forall_octet
  set_option maxRecDepth 10000 in
  decide

/-- The first octets of the sequences, by the bits of the character that are in them. -/
theorem first_octets :
  (∀ y : Fin 0x20, 2 ≤ y.val → ¬ (0xc0 ||| UInt8.ofNat y.val) < 0x80
      ∧ ¬ (0xc0 ||| UInt8.ofNat y.val) ≤ 0xc1 ∧ (0xc0 ||| UInt8.ofNat y.val) < 0xe0
      ∧ ((0xc0 ||| UInt8.ofNat y.val) &&& 0x1f).toNat = y.val)
    ∧ (∀ y : Fin 0x10, ¬ (0xe0 ||| UInt8.ofNat y.val) < 0x80
      ∧ ¬ (0xe0 ||| UInt8.ofNat y.val) ≤ 0xc1 ∧ ¬ (0xe0 ||| UInt8.ofNat y.val) < 0xe0
      ∧ (0xe0 ||| UInt8.ofNat y.val) < 0xf0
      ∧ ((0xe0 ||| UInt8.ofNat y.val) &&& 0x0f).toNat = y.val)
    ∧ ∀ y : Fin 5, ¬ (0xf0 ||| (UInt8.ofNat y.val &&& 0xf)) < 0x80
      ∧ ¬ (0xf0 ||| (UInt8.ofNat y.val &&& 0xf)) ≤ 0xc1
      ∧ ¬ (0xf0 ||| (UInt8.ofNat y.val &&& 0xf)) < 0xe0
      ∧ ¬ (0xf0 ||| (UInt8.ofNat y.val &&& 0xf)) < 0xf0
      ∧ (0xf0 ||| (UInt8.ofNat y.val &&& 0xf)) < 0xf5
      ∧ ((0xf0 ||| (UInt8.ofNat y.val &&& 0xf)) &&& 0x07).toNat = y.val
  := by decide

theorem isContinuationByte_tail (b : UInt8) :
  isContinuationByte (0x80 ||| (b &&& 0x3f)) = true
  := (built_octet b).1

theorem bits_tail (b : UInt8) :
  ((0x80 ||| (b &&& 0x3f)) &&& 0x3f).toNat = b.toNat % 0x40
  := (built_octet b).2.1

theorem continuation_tail {charsNeeded minUc count uc : ℕ} (b : UInt8) (src : QByteArray) :
  continuation charsNeeded minUc (count + 1) uc ((0x80 ||| (b &&& 0x3f)) :: src)
    = continuation charsNeeded minUc count (uc * 0x40 + b.toNat % 0x40) src
  := by
  rw [continuation, isContinuationByte_tail, addBits, bits_tail]
  rfl

theorem fromUtf8_two {x : ℕ} (h : x < 0x20) (htwo : 2 ≤ x) (src : QByteArray) :
  fromUtf8 (0xc0 ||| UInt8.ofNat x) src = continuation 2 0x80 1 x src
  := by
  obtain ⟨h1, h2, h3, hbits⟩ := first_octets.1 ⟨x, h⟩ htwo
  rw [fromUtf8, if_neg h1, if_neg h2, if_pos h3, hbits]

theorem fromUtf8_three {x : ℕ} (h : x < 0x10) (src : QByteArray) :
  fromUtf8 (0xe0 ||| UInt8.ofNat x) src = continuation 3 0x800 2 x src
  := by
  obtain ⟨h1, h2, h3, h4, hbits⟩ := first_octets.2.1 ⟨x, h⟩
  rw [fromUtf8, if_neg h1, if_neg h2, if_neg h3, if_pos h4, hbits]

theorem fromUtf8_four {x : ℕ} (h : x < 5) (src : QByteArray) :
  fromUtf8 (0xf0 ||| (UInt8.ofNat x &&& 0xf)) src = continuation 4 0x10000 3 x src
  := by
  obtain ⟨h1, h2, h3, h4, h5, hbits⟩ := first_octets.2.2 ⟨x, h⟩
  rw [fromUtf8, if_neg h1, if_neg h2, if_neg h3, if_neg h4, if_pos h5, hbits]

theorem toNat_ofNat_mod (n : ℕ) :
  (UInt8.ofNat n).toNat % 0x40 = n % 0x40
  := by
  rw [UInt8.toNat_ofNat']
  exact Nat.mod_mod_of_dvd n (by decide)

theorem shiftRight_toUInt8 (u : UInt16) (n : ℕ) (h : n < 16) :
  (u >>> UInt16.ofNat n).toUInt8 = UInt8.ofNat (u.toNat / 2 ^ n)
  := by
  apply UInt8.toNat_inj.mp
  rw [UInt16.toNat_toUInt8, UInt8.toNat_ofNat', UInt16.toNat_shiftRight, UInt16.toNat_ofNat',
    Nat.shiftRight_eq_div_pow, Nat.mod_eq_of_lt (show n < 2 ^ 16 by omega), Nat.mod_eq_of_lt h]

theorem toUInt8_mod (u : UInt16) :
  u.toUInt8.toNat % 0x40 = u.toNat % 0x40
  := by
  rw [UInt16.toNat_toUInt8]
  exact Nat.mod_mod_of_dvd _ (by decide)

/-! ### Surrogates -/

/-- The bits of a code unit above the ten that a surrogate carries. -/
theorem and_highBits {x : ℕ} (h : x < 2 ^ 16) :
  x &&& 0xfc00 = x / 0x400 * 0x400
  := by
  have hshift : x / 0x400 * 0x400 = (x >>> 10) <<< 10 := by
    rw [Nat.shiftLeft_eq, Nat.shiftRight_eq_div_pow]
  have hmask : ∀ i < 16, Nat.testBit 0xfc00 i = decide (10 ≤ i) := by decide
  rw [hshift]
  apply Nat.eq_of_testBit_eq
  intro i
  rw [Nat.testBit_and, Nat.testBit_shiftLeft, Nat.testBit_shiftRight]
  rcases Nat.lt_or_ge i 16 with hi | hi
  · rw [hmask i hi, Bool.and_comm]
    by_cases hten : 10 ≤ i
    · rw [Nat.add_sub_cancel' hten]
    · rw [decide_eq_false hten, Bool.false_and, Bool.false_and]
  · rw [Nat.testBit_lt_two_pow (Nat.lt_of_lt_of_le h (Nat.pow_le_pow_right (by decide) hi)),
      Nat.add_sub_cancel' (Nat.le_trans (by decide) hi),
      Nat.testBit_lt_two_pow (Nat.lt_of_lt_of_le h (Nat.pow_le_pow_right (by decide) hi)),
      Bool.and_false, Bool.false_and]

theorem isHighSurrogate_iff (u : UInt16) :
  isHighSurrogate u = true ↔ 0xd800 ≤ u.toNat ∧ u.toNat < 0xdc00
  := by
  have hu := u.toNat_lt
  rw [isHighSurrogate, decide_eq_true_iff, ← UInt16.toNat_inj, UInt16.toNat_and]
  change u.toNat &&& 0xfc00 = 0xd800 ↔ _
  rw [and_highBits hu]
  omega

theorem isLowSurrogate_iff (u : UInt16) :
  isLowSurrogate u = true ↔ 0xdc00 ≤ u.toNat ∧ u.toNat < 0xe000
  := by
  have hu := u.toNat_lt
  rw [isLowSurrogate, decide_eq_true_iff, ← UInt16.toNat_inj, UInt16.toNat_and]
  change u.toNat &&& 0xfc00 = 0xdc00 ↔ _
  rw [and_highBits hu]
  omega

theorem isSurrogate_iff (n : ℕ) :
  isSurrogate n = true ↔ 0xd800 ≤ n ∧ n < 0xe000
  := by
  rw [isSurrogate, Bool.and_eq_true, decide_eq_true_iff, decide_eq_true_iff]
  omega

/-- The code point of a pair, from the ten bits that each half carries. -/
theorem surrogateToUcs4_eq {high low : UInt16} {a b : ℕ} (ha : high.toNat = 0xd800 + a)
    (hb : low.toNat = 0xdc00 + b) :
  surrogateToUcs4 high low = 0x10000 + a * 0x400 + b
  := by
  unfold surrogateToUcs4
  grind

/-! ### Reading what is written -/

theorem appendUcs4_unit :
  appendUcs4 u.toNat = [u]
  := by
  rw [appendUcs4, if_pos u.toNat_lt, UInt16.ofNat_toNat]

theorem finish_ok {charsNeeded minUc uc : ℕ} (hmin : minUc ≤ uc)
    (hsurrogate : isSurrogate uc = false) (hmax : uc ≤ 0x10ffff) :
  finish charsNeeded minUc uc = .char (appendUcs4 uc) charsNeeded
  := by
  rw [finish, if_neg (Nat.not_lt_of_le hmin), hsurrogate, Bool.false_or,
    decide_eq_false (Nat.not_lt_of_le hmax)]
  rfl

/-- `fromUtf8` reads the octets of a character back. -/
theorem fromUtf8_toUtf8 (h : toUtf8 u src = some (bytes, src')) :
  ∃ b tail units, bytes = b :: tail ∧ u :: src = units ++ src'
    ∧ appendUcs4 (toUcs4 units) = units
    ∧ ∀ rest, fromUtf8 b (tail ++ rest) = .char units bytes.length
  := by
  have hu := u.toNat_lt
  unfold toUtf8 at h
  split at h
  next hone =>
    cases h
    have hu₁ : u.toNat < 0x80 := UInt16.lt_iff_toNat_lt.mp hone
    have hoctet : u.toUInt8.toNat = u.toNat := by
      rw [UInt16.toNat_toUInt8]
      exact Nat.mod_eq_of_lt (by omega)
    refine ⟨u.toUInt8, [], [u], rfl, rfl, appendUcs4_unit, ?_⟩
    intro rest
    have hlt : u.toUInt8 < 0x80 := by
      rw [UInt8.lt_iff_toNat_lt, hoctet]
      exact hu₁
    have hunit : u.toUInt8.toUInt16 = u := by
      rw [← UInt16.toNat_inj, UInt8.toNat_toUInt16, hoctet]
    rw [fromUtf8, if_pos hlt, hunit]
    rfl
  next hone =>
    have hu₁ : 0x80 ≤ u.toNat := by
      rw [UInt16.lt_iff_toNat_lt] at hone
      exact Nat.le_of_not_lt hone
    split at h
    next htwo =>
      cases h
      have hu₂ : u.toNat < 0x800 := UInt16.lt_iff_toNat_lt.mp htwo
      refine ⟨_, _, [u], rfl, rfl, appendUcs4_unit, ?_⟩
      intro rest
      have hbits : u.toNat / 2 ^ 6 * 0x40 + u.toNat % 0x40 = u.toNat := by omega
      change fromUtf8 (0xc0 ||| (u >>> UInt16.ofNat 6).toUInt8) _ = _
      rw [shiftRight_toUInt8 u 6 (by decide), fromUtf8_two (by omega) (by omega),
        List.cons_append, continuation_tail, toUInt8_mod, hbits, continuation,
        finish_ok hu₁ _ (by omega), appendUcs4_unit]
      · rfl
      · rw [← Bool.not_eq_true, isSurrogate_iff]
        omega
    next htwo =>
      have hu₂ : 0x800 ≤ u.toNat := by
        rw [UInt16.lt_iff_toNat_lt] at htwo
        exact Nat.le_of_not_lt htwo
      split at h
      next hbmp =>
        cases h
        rw [Bool.not_eq_true'] at hbmp
        refine ⟨_, _, [u], rfl, rfl, appendUcs4_unit, ?_⟩
        intro rest
        have hbits : (u.toNat / 2 ^ 12 * 0x40 + u.toNat / 2 ^ 6 % 0x40) * 0x40 + u.toNat % 0x40
            = u.toNat := by omega
        change fromUtf8 (0xe0 ||| (u >>> UInt16.ofNat 12).toUInt8)
          ((0x80 ||| ((u >>> UInt16.ofNat 6).toUInt8 &&& 0x3f)) ::
            (0x80 ||| (u.toUInt8 &&& 0x3f)) :: rest) = _
        rw [shiftRight_toUInt8 u 12 (by decide), shiftRight_toUInt8 u 6 (by decide),
          fromUtf8_three (by omega), continuation_tail, toNat_ofNat_mod, continuation_tail,
          toUInt8_mod, hbits, continuation, finish_ok hu₂ hbmp (by omega), appendUcs4_unit]
        rfl
      next hsurrogate =>
        cases src with
        | nil => cases h
        | cons low src =>
          dsimp only at h
          split at h
          next => cases h
          next hpair =>
            cases h
            rw [Bool.or_eq_true, not_or, Bool.not_eq_true', Bool.not_eq_false,
              Bool.not_eq_true', Bool.not_eq_false, isHighSurrogate_iff,
              isLowSurrogate_iff] at hpair
            obtain ⟨hhigh, hlow⟩ := hpair
            obtain ⟨x, hx⟩ := Nat.exists_eq_add_of_le hhigh.1
            obtain ⟨y, hy⟩ := Nat.exists_eq_add_of_le hlow.1
            have hucs4 := surrogateToUcs4_eq hx hy
            have hunits : appendUcs4 (surrogateToUcs4 u low) = [u, low] := by
              rw [hucs4]
              have hlarge : ¬ 0x10000 + x * 0x400 + y < 0x10000 := by omega
              have hfirst : UInt16.ofNat ((0x10000 + x * 0x400 + y) / 0x400 + 0xd7c0) = u := by
                rw [← UInt16.toNat_inj, UInt16.toNat_ofNat']
                omega
              have hsecond : UInt16.ofNat ((0x10000 + x * 0x400 + y) % 0x400 + 0xdc00)
                  = low := by
                rw [← UInt16.toNat_inj, UInt16.toNat_ofNat']
                omega
              rw [appendUcs4, if_neg hlarge, hfirst, hsecond]
            refine ⟨_, _, [u, low], rfl, rfl, hunits, ?_⟩
            intro rest
            generalize surrogateToUcs4 u low = ucs4 at hucs4 hunits
            have hbits : ((ucs4 / 2 ^ 18 * 0x40 + ucs4 / 2 ^ 12 % 0x40) * 0x40
                + ucs4 / 2 ^ 6 % 0x40) * 0x40 + ucs4 % 0x40 = ucs4 := by omega
            rw [List.cons_append, List.cons_append, List.cons_append, List.nil_append,
              Nat.shiftRight_eq_div_pow, Nat.shiftRight_eq_div_pow, Nat.shiftRight_eq_div_pow,
              fromUtf8_four (by omega), continuation_tail, toNat_ofNat_mod, continuation_tail,
              toNat_ofNat_mod, continuation_tail, toNat_ofNat_mod, hbits, continuation,
              finish_ok (by omega) _ (by omega), hunits]
            · rfl
            · rw [← Bool.not_eq_true, isSurrogate_iff]
              omega

/-- The octets of a character other than US-ASCII have their highest bit set. -/
theorem toUtf8_high (hu : ¬ u < 0x80) (h : toUtf8 u src = some (bytes, src')) {c : UInt8}
    (hc : c ∈ bytes) :
  0x80 ≤ c
  := by
  have htwo : ∀ b : UInt8, 0x80 ≤ (0xc0 : UInt8) ||| b := fun b => (built_octet b).2.2.1
  have hthree : ∀ b : UInt8, 0x80 ≤ (0xe0 : UInt8) ||| b := fun b => (built_octet b).2.2.2.1
  have hfour : ∀ b : UInt8, 0x80 ≤ (0xf0 : UInt8) ||| b := fun b => (built_octet b).2.2.2.2.1
  have htail : ∀ b : UInt8, 0x80 ≤ (0x80 : UInt8) ||| b := fun b => (built_octet b).2.2.2.2.2
  unfold toUtf8 at h
  rw [if_neg hu] at h
  split at h
  next =>
    cases h
    rw [List.mem_cons, List.mem_singleton] at hc
    rcases hc with rfl | rfl
    · exact htwo _
    · exact htail _
  next =>
    split at h
    next =>
      cases h
      rw [List.mem_cons, List.mem_cons, List.mem_singleton] at hc
      rcases hc with rfl | rfl | rfl
      · exact hthree _
      · exact htail _
      · exact htail _
    next =>
      cases src with
      | nil => cases h
      | cons low src =>
        dsimp only at h
        split at h
        next => cases h
        next =>
          cases h
          rw [List.mem_cons, List.mem_cons, List.mem_cons, List.mem_singleton] at hc
          rcases hc with rfl | rfl | rfl | rfl
          · exact hfour _
          · exact htail _
          · exact htail _
          · exact htail _

/-- Only a surrogate has no octets. -/
theorem toUtf8_eq_none (h : toUtf8 u src = none) :
  isSurrogate u.toNat = true
  := by
  unfold toUtf8 at h
  split at h
  next => cases h
  next =>
    split at h
    next => cases h
    next =>
      split at h
      next => cases h
      next hsurrogate => rwa [Bool.not_eq_true', Bool.not_eq_false] at hsurrogate

/-! ### Encoding with a state -/

/-- The octets of U+FFFD, which stands for a surrogate that is not part of a pair. -/
def replacementOctets : QByteArray :=
  [0xef, 0xbf, 0xbd]

/-- A code unit that no unfinished pair precedes. -/
def encodeUnit (u : UInt16) : QByteArray × Option UInt16 :=
  match toUtf8 u [] with
  | some (bytes, _) => (bytes, none)
  | none => ([], some u)

/-- `QUtf8::convertFromUnicode` for one code unit, with a state that holds a surrogate whose pair is
unfinished. -/
def convertFromUnicode (u : UInt16) : Option UInt16 → QByteArray × Option UInt16
  | none => encodeUnit u
  | some high =>
    match toUtf8 high [u] with
    | some (bytes, _) => (bytes, none)
    | none =>
      let (bytes, state) := encodeUnit u
      (replacementOctets ++ bytes, state)

end QUtf8
