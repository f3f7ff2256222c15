import BobUI.Corelib.Text.Utf8Chunks
import BobUI.Corelib.Text.Utf8Encode

/-!
# Encoding what was decoded

UTF-8 has one sequence of octets for a character: `toUtf8` writes the octets that `fromUtf8` has
read.
-/

namespace QUtf8

/-! ### Octets -/

theorem and_low_bits (n : ℕ) :
  UInt8.ofNat n &&& 0x3f = UInt8.ofNat (n % 0x40)
  := by
  rw [← UInt8.toNat_inj, UInt8.toNat_and, UInt8.toNat_ofNat', UInt8.toNat_ofNat']
  change n % 2 ^ 8 &&& 2 ^ 6 - 1 = _
  rw [Nat.and_two_pow_sub_one_eq_mod]
  omega

/-- The octets of a sequence, built again from the bits of the character that are in them. -/
theorem rebuilt_octet (b : UInt8) :
  (isContinuationByte b = true → (0x80 : UInt8) ||| UInt8.ofNat (b &&& 0x3f).toNat = b)
    ∧ (b &&& 0x3f).toNat < 0x40
    ∧ (¬ b ≤ 0xc1 → b < 0xe0 →
      (0xc0 : UInt8) ||| UInt8.ofNat (b &&& 0x1f).toNat = b ∧ (b &&& 0x1f).toNat < 0x20)
    ∧ (¬ b < 0xe0 → b < 0xf0 →
      (0xe0 : UInt8) ||| UInt8.ofNat (b &&& 0x0f).toNat = b ∧ (b &&& 0x0f).toNat < 0x10)
    ∧ (¬ b < 0xf0 → b < 0xf5 →
      (0xf0 : UInt8) ||| (UInt8.ofNat (b &&& 0x07).toNat &&& 0xf) = b
        ∧ (b &&& 0x07).toNat < 0x08)
    ∧ 0xf0 ≤ (0xf0 : UInt8) ||| (b &&& 0xf)
  := by
  revert b
  apply forall_octet
  set_option maxRecDepth 10000 in
  decide

variable {b : UInt8} {n : ℕ} {units : QString} {src : QByteArray} {charsNeeded : ℕ}

theorem tail_of_bits (h : isContinuationByte b = true) (hn : n % 0x40 = (b &&& 0x3f).toNat) :
  (0x80 : UInt8) ||| (UInt8.ofNat n &&& 0x3f) = b
  := by
  rw [and_low_bits, hn]
  exact (rebuilt_octet b).1 h

theorem low_bits_lt (b : UInt8) :
  (b &&& 0x3f).toNat < 0x40
  := (rebuilt_octet b).2.1

theorem head_two (hlow : ¬ b ≤ 0xc1) (hhigh : b < 0xe0) :
  (0xc0 : UInt8) ||| UInt8.ofNat (b &&& 0x1f).toNat = b ∧ (b &&& 0x1f).toNat < 0x20
  := (rebuilt_octet b).2.2.1 hlow hhigh

theorem head_three (hlow : ¬ b < 0xe0) (hhigh : b < 0xf0) :
  (0xe0 : UInt8) ||| UInt8.ofNat (b &&& 0x0f).toNat = b ∧ (b &&& 0x0f).toNat < 0x10
  := (rebuilt_octet b).2.2.2.1 hlow hhigh

theorem head_four (hlow : ¬ b < 0xf0) (hhigh : b < 0xf5) :
  (0xf0 : UInt8) ||| (UInt8.ofNat (b &&& 0x07).toNat &&& 0xf) = b ∧ (b &&& 0x07).toNat < 0x08
  := (rebuilt_octet b).2.2.2.2.1 hlow hhigh

theorem toUInt8_eq_ofNat (u : UInt16) :
  u.toUInt8 = UInt8.ofNat u.toNat
  := by
  rw [← UInt8.toNat_inj, UInt16.toNat_toUInt8, UInt8.toNat_ofNat']

theorem continuation_succ_char {minUc count uc : ℕ}
    (h : continuation charsNeeded minUc (count + 1) uc src = .char units n) :
  ∃ b rest, src = b :: rest ∧ isContinuationByte b = true
    ∧ continuation charsNeeded minUc count (addBits uc b) rest = .char units n
  := by
  cases src with
  | nil => cases h
  | cons b rest =>
    rw [continuation] at h
    split at h
    next => cases h
    next hb => exact ⟨b, rest, rfl, by simpa using hb, h⟩

theorem finish_char {minUc uc : ℕ} (h : finish charsNeeded minUc uc = .char units n) :
  minUc ≤ uc ∧ isSurrogate uc = false ∧ uc ≤ 0x10ffff ∧ units = appendUcs4 uc ∧ n = charsNeeded
  := by
  unfold finish at h
  split at h
  next => cases h
  next hmin =>
    split at h
    next => cases h
    next hvalid =>
      rw [Bool.or_eq_true, not_or, decide_eq_true_eq, Bool.not_eq_true] at hvalid
      cases h
      exact ⟨Nat.le_of_not_lt hmin, hvalid.1, Nat.le_of_not_lt hvalid.2, rfl, rfl⟩

/-! ### Writing what was read -/

/-- The code unit of a character in the basic plane. -/
theorem appendUcs4_bmp {uc : ℕ} (h : uc < 0x10000) :
  appendUcs4 uc = [UInt16.ofNat uc] ∧ (UInt16.ofNat uc).toNat = uc
  := by
  refine ⟨by rw [appendUcs4, if_pos h], ?_⟩
  rw [UInt16.toNat_ofNat']
  exact Nat.mod_eq_of_lt h

/-- `toUtf8` writes the octets of a character that `fromUtf8` has read. -/
theorem toUtf8_fromUtf8 (hb : 0x80 ≤ b) (h : fromUtf8 b src = .char units n) :
  ∃ u us, units = u :: us ∧ ¬ u < 0x80
    ∧ ∀ rest, toUtf8 u (us ++ rest) = some (b :: src.take (n - 1), rest)
  := by
  unfold fromUtf8 at h
  rw [if_neg (UInt8.not_lt.mpr hb)] at h
  split at h
  next => cases h
  next hlow =>
    split at h
    next htwo =>
      obtain ⟨b₁, src, rfl, hb₁, h⟩ := continuation_succ_char h
      obtain ⟨hmin, -, -, rfl, rfl⟩ := finish_char h
      obtain ⟨hhead, hbits⟩ := head_two hlow htwo
      have hbits₁ := low_bits_lt b₁
      have huc : addBits (b &&& 0x1f).toNat b₁
          = (b &&& 0x1f).toNat * 0x40 + (b₁ &&& 0x3f).toNat := rfl
      generalize addBits (b &&& 0x1f).toNat b₁ = uc at huc hmin
      obtain ⟨hunits, htoNat⟩ := appendUcs4_bmp (show uc < 0x10000 by omega)
      refine ⟨_, _, hunits, ?_, fun rest => ?_⟩
      · rw [UInt16.lt_iff_toNat_lt, htoNat]
        exact Nat.not_lt_of_le hmin
      · unfold toUtf8
        rw [if_neg, if_pos]
        · change some ([(0xc0 : UInt8) ||| (UInt16.ofNat uc >>> UInt16.ofNat 6).toUInt8, _], _) = _
          rw [shiftRight_toUInt8 _ 6 (by decide), htoNat, toUInt8_eq_ofNat, htoNat,
            show uc / 2 ^ 6 = (b &&& 0x1f).toNat by omega, hhead, tail_of_bits hb₁ (by omega)]
          rfl
        · rw [UInt16.lt_iff_toNat_lt, htoNat]
          change uc < 0x800
          omega
        · rw [UInt16.lt_iff_toNat_lt, htoNat]
          exact Nat.not_lt_of_le hmin
    next htwo =>
      split at h
      next hthree =>
        obtain ⟨b₁, src, rfl, hb₁, h⟩ := continuation_succ_char h
        obtain ⟨b₂, src, rfl, hb₂, h⟩ := continuation_succ_char h
        obtain ⟨hmin, hsurrogate, -, rfl, rfl⟩ := finish_char h
        obtain ⟨hhead, hbits⟩ := head_three htwo hthree
        have hbits₁ := low_bits_lt b₁
        have hbits₂ := low_bits_lt b₂
        have huc : addBits (addBits (b &&& 0x0f).toNat b₁) b₂
            = ((b &&& 0x0f).toNat * 0x40 + (b₁ &&& 0x3f).toNat) * 0x40 + (b₂ &&& 0x3f).toNat := rfl
        generalize addBits (addBits (b &&& 0x0f).toNat b₁) b₂ = uc at huc hmin hsurrogate
        obtain ⟨hunits, htoNat⟩ := appendUcs4_bmp (show uc < 0x10000 by omega)
        refine ⟨_, _, hunits, ?_, fun rest => ?_⟩
        · rw [UInt16.lt_iff_toNat_lt, htoNat]
          change ¬ uc < 0x80
          omega
        · unfold toUtf8
          rw [if_neg, if_neg, if_pos]
          · change some ([(0xe0 : UInt8) ||| (UInt16.ofNat uc >>> UInt16.ofNat 12).toUInt8,
              (0x80 : UInt8) ||| ((UInt16.ofNat uc >>> UInt16.ofNat 6).toUInt8 &&& 0x3f), _], _) = _
            rw [shiftRight_toUInt8 _ 12 (by decide), shiftRight_toUInt8 _ 6 (by decide), htoNat,
              toUInt8_eq_ofNat, htoNat, show uc / 2 ^ 12 = (b &&& 0x0f).toNat by omega, hhead,
              tail_of_bits hb₁ (by omega), tail_of_bits hb₂ (by omega)]
            rfl
          · rw [htoNat, hsurrogate]
            rfl
          · rw [UInt16.lt_iff_toNat_lt, htoNat]
            exact Nat.not_lt_of_le hmin
          · rw [UInt16.lt_iff_toNat_lt, htoNat]
            change ¬ uc < 0x80
            omega
      next hthree =>
        split at h
        next hfour =>
          obtain ⟨b₁, src, rfl, hb₁, h⟩ := continuation_succ_char h
          obtain ⟨b₂, src, rfl, hb₂, h⟩ := continuation_succ_char h
          obtain ⟨b₃, src, rfl, hb₃, h⟩ := continuation_succ_char h
          obtain ⟨hmin, -, hmax, rfl, rfl⟩ := finish_char h
          obtain ⟨hhead, hbits⟩ := head_four hthree hfour
          have hbits₁ := low_bits_lt b₁
          have hbits₂ := low_bits_lt b₂
          have hbits₃ := low_bits_lt b₃
          have huc : addBits (addBits (addBits (b &&& 0x07).toNat b₁) b₂) b₃
              = (((b &&& 0x07).toNat * 0x40 + (b₁ &&& 0x3f).toNat) * 0x40
                + (b₂ &&& 0x3f).toNat) * 0x40 + (b₃ &&& 0x3f).toNat := rfl
          generalize addBits (addBits (addBits (b &&& 0x07).toNat b₁) b₂) b₃ = uc at huc hmin hmax
          have hunits : appendUcs4 uc
              = [UInt16.ofNat (uc / 0x400 + 0xd7c0), UInt16.ofNat (uc % 0x400 + 0xdc00)] := by
            rw [appendUcs4, if_neg (by omega)]
          have hhigh : (UInt16.ofNat (uc / 0x400 + 0xd7c0)).toNat = 0xd800 + (uc - 0x10000) / 0x400 := by
            rw [UInt16.toNat_ofNat']
            omega
          have hlow' : (UInt16.ofNat (uc % 0x400 + 0xdc00)).toNat = 0xdc00 + uc % 0x400 := by
            rw [UInt16.toNat_ofNat']
            omega
          refine ⟨_, _, hunits, ?_, fun rest => ?_⟩
          · rw [UInt16.lt_iff_toNat_lt, hhigh]
            change ¬ _ < 0x80
            omega
          · have hucs4 := surrogateToUcs4_eq hhigh hlow'
            generalize UInt16.ofNat (uc / 0x400 + 0xd7c0) = high at *
            generalize UInt16.ofNat (uc % 0x400 + 0xdc00) = low at *
            have hpair : ¬ (!isHighSurrogate high || !isLowSurrogate low) = true := by
              rw [Bool.or_eq_true, not_or, Bool.not_eq_true', Bool.not_eq_false, Bool.not_eq_true',
                Bool.not_eq_false, isHighSurrogate_iff, isLowSurrogate_iff]
              omega
            have his : ¬ (!isSurrogate high.toNat) = true := by
              rw [Bool.not_eq_true', Bool.not_eq_false, isSurrogate_iff]
              omega
            unfold toUtf8
            rw [if_neg, if_neg, if_neg his]
            · dsimp only [List.cons_append]
              rw [if_neg hpair, show surrogateToUcs4 high low = uc by omega, Nat.shiftRight_eq_div_pow,
                Nat.shiftRight_eq_div_pow, Nat.shiftRight_eq_div_pow,
                show uc / 2 ^ 18 = (b &&& 0x07).toNat by omega, hhead,
                tail_of_bits hb₁ (by omega), tail_of_bits hb₂ (by omega),
                tail_of_bits hb₃ (by omega)]
              rfl
            · rw [UInt16.lt_iff_toNat_lt, hhigh]
              change ¬ _ < 0x800
              omega
            · rw [UInt16.lt_iff_toNat_lt, hhigh]
              change ¬ _ < 0x80
              omega
        next => cases h

/-! ### Lengths -/

/-- `toUtf8` reads one code unit, or a pair of surrogates, which has four octets. -/
theorem toUtf8_rest {u : UInt16} {src src' : QString} {bytes : QByteArray}
    (h : toUtf8 u src = some (bytes, src')) :
  src' = src ∧ isSurrogate u.toNat = false
      ∧ bytes.length = (if u < 0x80 then 1 else if u < 0x800 then 2 else 3)
    ∨ ∃ low, src = low :: src' ∧ isHighSurrogate u = true ∧ isLowSurrogate low = true
      ∧ bytes.length = 4
  := by
  have hlow : ∀ n : ℕ, u.toNat < n → n ≤ 0x800 → isSurrogate u.toNat = false := by
    intro n hlt hle
    rw [← Bool.not_eq_true, isSurrogate_iff]
    omega
  unfold toUtf8 at h
  split at h
  next hone =>
    cases h
    refine .inl ⟨rfl, hlow 0x80 (UInt16.lt_iff_toNat_lt.mp hone) (by decide), ?_⟩
    rw [if_pos hone]
    rfl
  next hone =>
    split at h
    next htwo =>
      cases h
      refine .inl ⟨rfl, hlow 0x800 (UInt16.lt_iff_toNat_lt.mp htwo) (Nat.le_refl _), ?_⟩
      rw [if_neg hone, if_pos htwo]
      rfl
    next htwo =>
      split at h
      next hbmp =>
        cases h
        refine .inl ⟨rfl, by simpa using hbmp, ?_⟩
        rw [if_neg hone, if_neg htwo]
        rfl
      next =>
        cases src with
        | nil => cases h
        | cons low src =>
          dsimp only at h
          split at h
          next => cases h
          next hpair =>
            cases h
            rw [Bool.or_eq_true, not_or, Bool.not_eq_true', Bool.not_eq_false,
              Bool.not_eq_true', Bool.not_eq_false] at hpair
            exact .inr ⟨low, rfl, hpair.1, hpair.2, rfl⟩

/-- A character that does not begin with an ASCII octet has two to four octets. -/
theorem fromUtf8_length (hb : 0x80 ≤ b) (h : fromUtf8 b src = .char units n) :
  2 ≤ n ∧ n ≤ 4 ∧ n ≤ src.length + 1 ∧ 1 ≤ units.length ∧ units.length ≤ 2
  := by
  obtain ⟨hpos, hle, hne⟩ := fromUtf8_char h
  obtain ⟨u, us, rfl, hu, hwrite⟩ := toUtf8_fromUtf8 hb h
  have hoctets := hwrite []
  rw [List.append_nil] at hoctets
  have hlength : (b :: src.take (n - 1)).length = n := by
    rw [List.length_cons, List.length_take]
    omega
  rcases toUtf8_rest hoctets with ⟨hus, -, hbytes⟩ | ⟨low, hus, -, -, hbytes⟩
  · rw [hlength, if_neg hu] at hbytes
    rw [← hus, List.length_singleton]
    split at hbytes
    · omega
    · omega
  · rw [hlength] at hbytes
    rw [hus, List.length_cons, List.length_singleton]
    omega

/-! ### The octets that are read -/

theorem continuation_octets {minUc count uc : ℕ}
    (h : continuation charsNeeded minUc count uc src = .char units n) :
  ∀ b ∈ src.take count, isContinuationByte b = true
  := by
  induction count generalizing uc src with
  | zero => simp
  | succ count ih =>
    obtain ⟨b, rest, rfl, hb, hrest⟩ := continuation_succ_char h
    rw [List.take_succ_cons, List.forall_mem_cons]
    exact ⟨hb, ih hrest⟩

/-- The octets after the first one continue the character, and no others are looked at. -/
theorem fromUtf8_octets (h : fromUtf8 b src = .char units n) :
  (∀ c ∈ src.take (n - 1), isContinuationByte c = true)
    ∧ ∀ src', src'.take (n - 1) = src.take (n - 1) → fromUtf8 b src' = .char units n
  := by
  obtain hb | hb | ⟨count, minUc, uc, -, -, hb⟩ := fromUtf8_cases b
  · rw [hb] at h
    cases h
    refine ⟨by simp, fun src' _ => hb src'⟩
  · rw [hb] at h
    cases h
  · rw [hb] at h
    obtain ⟨-, rfl, -⟩ := continuation_char h
    rw [Nat.add_sub_cancel]
    refine ⟨continuation_octets h, fun src' hsrc => ?_⟩
    rw [hb, ← continuation_take (Nat.le_refl count), hsrc,
      continuation_take (Nat.le_refl count)]
    exact h

/-! ### Characters and their octets -/

theorem toUtf8_single {u : UInt16} (h : isSurrogate u.toNat = false) :
  ∃ bytes, ∀ src, toUtf8 u src = some (bytes, src)
  := by
  unfold toUtf8
  split
  next => exact ⟨_, fun src => rfl⟩
  next =>
    split
    next => exact ⟨_, fun src => rfl⟩
    next =>
      rw [h]
      exact ⟨_, fun src => rfl⟩

/-- The octets of a pair of surrogates, of which the first is 0xf0 or more. -/
theorem toUtf8_pair {high low : UInt16} (hhigh : isHighSurrogate high = true)
    (hlow : isLowSurrogate low = true) :
  ∃ b bytes, 0xf0 ≤ b ∧ ∀ src, toUtf8 high (low :: src) = some (b :: bytes, src)
  := by
  have hfirst : ∀ x : UInt8, 0xf0 ≤ (0xf0 : UInt8) ||| (x &&& 0xf) :=
    fun x => (rebuilt_octet x).2.2.2.2.2
  have hrange := (isHighSurrogate_iff high).mp hhigh
  have hsurrogate : isSurrogate high.toNat = true := by
    rw [isSurrogate_iff]
    omega
  let ucs4 := surrogateToUcs4 high low
  refine ⟨(0xf0 : UInt8) ||| (UInt8.ofNat (ucs4 >>> 18) &&& 0xf),
    [(0x80 : UInt8) ||| (UInt8.ofNat (ucs4 >>> 12) &&& 0x3f),
      (0x80 : UInt8) ||| (UInt8.ofNat (ucs4 >>> 6) &&& 0x3f),
      (0x80 : UInt8) ||| (UInt8.ofNat ucs4 &&& 0x3f)], hfirst _, fun src => ?_⟩
  unfold toUtf8
  rw [if_neg, if_neg, hsurrogate, hhigh]
  · dsimp only
    rw [hlow]
    rfl
  · rw [UInt16.lt_iff_toNat_lt]
    change ¬ _ < 0x800
    omega
  · rw [UInt16.lt_iff_toNat_lt]
    change ¬ _ < 0x80
    omega

/-! ### Pairs of surrogates -/

section

variable {c : UInt16} {tail : QString}

theorem isHighSurrogate_of_not (h : isSurrogate c.toNat = false) :
  isHighSurrogate c = false ∧ isLowSurrogate c = false
  := by
  rw [← Bool.not_eq_true, isSurrogate_iff] at h
  rw [← Bool.not_eq_true, ← Bool.not_eq_true, isHighSurrogate_iff, isLowSurrogate_iff]
  omega

theorem isSurrogate_ascii (h : c < 0x80) :
  isSurrogate c.toNat = false
  := by
  have hc : c.toNat < 0x80 := UInt16.lt_iff_toNat_lt.mp h
  rw [← Bool.not_eq_true, isSurrogate_iff]
  omega

theorem isHighSurrogate_of_low (h : isLowSurrogate c = true) :
  isHighSurrogate c = false
  := by
  rw [isLowSurrogate_iff] at h
  rw [← Bool.not_eq_true, isHighSurrogate_iff]
  omega

theorem le_of_isHighSurrogate (h : isHighSurrogate c = true) :
  0x80 ≤ c
  := by
  rw [isHighSurrogate_iff] at h
  rw [UInt16.le_iff_toNat_le]
  change 0x80 ≤ _
  omega

theorem le_of_isLowSurrogate (h : isLowSurrogate c = true) :
  0x80 ≤ c
  := by
  rw [isLowSurrogate_iff] at h
  rw [UInt16.le_iff_toNat_le]
  change 0x80 ≤ _
  omega

/-- There is no unpaired surrogate. -/
def paired : QString → Bool
  | [] => true
  | c :: tail =>
    if isHighSurrogate c then
      match tail with
      | [] => false
      | low :: rest => isLowSurrogate low && paired rest
    else !isLowSurrogate c && paired tail

theorem paired_cons (h : isSurrogate c.toNat = false) (tail : QString) :
  paired (c :: tail) = paired tail
  := by
  obtain ⟨hhigh, hlow⟩ := isHighSurrogate_of_not h
  rw [paired.eq_def]
  dsimp only
  rw [hhigh, hlow]
  rfl

theorem paired_pair {low : UInt16} (h : isHighSurrogate c = true) (rest : QString) :
  paired (c :: low :: rest) = (isLowSurrogate low && paired rest)
  := by
  rw [paired.eq_def]
  dsimp only
  rw [if_pos h]

theorem not_isSurrogate_of_paired (h : paired (c :: tail) = true)
    (hhigh : isHighSurrogate c = false) :
  isSurrogate c.toNat = false
  := by
  rw [paired.eq_def] at h
  dsimp only at h
  rw [hhigh, if_neg Bool.false_ne_true, Bool.and_eq_true, Bool.not_eq_true',
    ← Bool.not_eq_true, isLowSurrogate_iff] at h
  rw [← Bool.not_eq_true, isHighSurrogate_iff] at hhigh
  rw [← Bool.not_eq_true, isSurrogate_iff]
  omega

theorem low_of_paired (h : paired (c :: tail) = true) (hhigh : isHighSurrogate c = true) :
  ∃ low rest, tail = low :: rest ∧ isLowSurrogate low = true
  := by
  rw [paired.eq_def] at h
  dsimp only at h
  rw [if_pos hhigh] at h
  cases tail with
  | nil => cases h
  | cons low rest =>
    rw [Bool.and_eq_true] at h
    exact ⟨low, rest, rfl, h.1⟩

end

end QUtf8
