import BobUI.Corelib.Text.Utf8Encoder
import BobUI.Library.Utf8Texts

/-!
# The UTF-8 codec

`isValidUtf8`, and the conversions of `QUtf8` that take no state: the octets that decode without
an error are the texts of UTF-8, and each of both conversions undoes the other on what is well
formed.
-/

namespace QUtf8

open Utf8

/-! ### Conversions without a state -/

/-- The loop of `convertToUnicode`, and how often it calls `onError`, which replaces an octet and
goes on. -/
def decodeView : QByteArray → QString × ℕ
  | [] => ([], 0)
  | b :: src =>
    match fromUtf8 b src with
    | .char units length =>
      let rest := decodeView (src.drop (length - 1))
      (units ++ rest.1, rest.2)
    | _ =>
      let rest := decodeView src
      (0xfffd :: rest.1, rest.2 + 1)
termination_by bytes => bytes.length
decreasing_by all_goals simp +arith

/-- `QUtf8::convertToUnicode` without a state, and how many errors it meets. -/
def convertViewToUnicode (input : QByteArray) : QString × ℕ :=
  decodeView (if utf8bom.isPrefixOf input then input.drop 3 else input)

/-- `QUtf8::convertFromUnicode` without a state; `?` stands for a surrogate that is not part of a
pair. -/
def convertViewFromUnicode : QString → QByteArray
  | [] => []
  | u :: src =>
    match _h : toUtf8 u src with
    | some (bytes, src') => bytes ++ convertViewFromUnicode src'
    | none => 0x3f :: convertViewFromUnicode src
termination_by units => units.length
decreasing_by
  · exact Nat.lt_succ_of_le (toUtf8_length _h)
  · exact Nat.lt_succ_self _

/-- `QUtf8::ValidUtf8Result`. -/
structure ValidUtf8Result where
  isValidUtf8 : Bool
  isValidAscii : Bool
deriving DecidableEq, Repr

/-- The loop of `isValidUtf8`, which skips octets of ASCII. -/
def validate (isValidAscii : Bool) : QByteArray → ValidUtf8Result
  | [] => ⟨true, isValidAscii⟩
  | b :: src =>
    if b &&& 0x80 = 0 then validate isValidAscii src
    else
      match fromUtf8 b src with
      | .char _ length => validate false (src.drop (length - 1))
      | _ => ⟨false, false⟩
termination_by bytes => bytes.length
decreasing_by all_goals simp +arith

/-- `QUtf8::isValidUtf8`. -/
def isValidUtf8 (input : QByteArray) : ValidUtf8Result :=
  validate true input

/-! ### Sequences -/

theorem tail_octet (n : ℕ) :
  (0x80 : UInt8) ||| (UInt8.ofNat n &&& 0x3f) = UInt8.ofNat (0x80 + n % 0x40)
  := by
  have hall : ∀ y : Fin 0x40,
      (0x80 : UInt8) ||| UInt8.ofNat y.val = UInt8.ofNat (0x80 + y.val) := by
    decide
  rw [and_low_bits]
  apply hall ⟨n % 0x40, Nat.mod_lt _ (by decide)⟩

theorem head_octets :
  (∀ y : Fin 0x20, (0xc0 : UInt8) ||| UInt8.ofNat y.val = UInt8.ofNat (0xc0 + y.val))
    ∧ (∀ y : Fin 0x10, (0xe0 : UInt8) ||| UInt8.ofNat y.val = UInt8.ofNat (0xe0 + y.val))
    ∧ ∀ y : Fin 0x5, (0xf0 : UInt8) ||| (UInt8.ofNat y.val &&& 0xf) = UInt8.ofNat (0xf0 + y.val)
  := by decide

variable {c : ℕ} {src : QByteArray} {units : QString}

/-- `toUtf8` writes the sequence of a code point for its code units. -/
theorem toUtf8_appendUcs4 (h : Scalar c) :
  ∃ u us, appendUcs4 c = u :: us ∧ ∀ rest, toUtf8 u (us ++ rest) = some (octetsOf c, rest)
  := by
  by_cases hbmp : c < 0x10000
  · obtain ⟨hunits, htoNat⟩ := appendUcs4_bmp hbmp
    use UInt16.ofNat c, [], hunits
    intro rest
    have hlt : ∀ n : ℕ, n < 2 ^ 16 → (UInt16.ofNat c < UInt16.ofNat n ↔ c < n) := by
      intro n hn
      rw [UInt16.lt_iff_toNat_lt, htoNat, UInt16.toNat_ofNat', Nat.mod_eq_of_lt hn]
    have hone : UInt16.ofNat c < 0x80 ↔ c < 0x80 := hlt 0x80 (by decide)
    have htwo : UInt16.ofNat c < 0x0800 ↔ c < 0x800 := hlt 0x800 (by decide)
    have hsurrogate : isSurrogate (UInt16.ofNat c).toNat = false := by
      rw [htoNat, ← Bool.not_eq_true, isSurrogate_iff]
      rcases h with h | h
      · omega
      · omega
    have hshift : ∀ n < 16,
        (UInt16.ofNat c >>> UInt16.ofNat n).toUInt8 = UInt8.ofNat (c / 2 ^ n) := by
      intro n hn
      rw [shiftRight_toUInt8 _ n hn, htoNat]
    have hsix : (UInt16.ofNat c >>> 6).toUInt8 = UInt8.ofNat (c / 0x40) := hshift 6 (by decide)
    have htwelve : (UInt16.ofNat c >>> 12).toUInt8 = UInt8.ofNat (c / 0x1000) :=
      hshift 12 (by decide)
    have hlast : (UInt16.ofNat c).toUInt8 = UInt8.ofNat c := by
      rw [toUInt8_eq_ofNat, htoNat]
    unfold toUtf8 octetsOf
    simp only [hone, htwo, hsurrogate, hsix, htwelve, hlast, tail_octet, Bool.not_false,
      if_true, List.nil_append]
    split
    next => rfl
    next h1 =>
      split
      next h2 =>
        rw [head_octets.1 ⟨c / 0x40, by omega⟩]
      next h2 =>
        rw [head_octets.2.1 ⟨c / 0x1000, by omega⟩]
  · have hunits : appendUcs4 c
        = [UInt16.ofNat (c / 0x400 + 0xd7c0), UInt16.ofNat (c % 0x400 + 0xdc00)] := by
      rw [appendUcs4, if_neg hbmp]
    have hmax : c ≤ 0x10ffff := by
      rcases h with h | h
      · omega
      · apply h.2
    have hhigh : (UInt16.ofNat (c / 0x400 + 0xd7c0)).toNat = 0xd800 + (c - 0x10000) / 0x400 := by
      rw [UInt16.toNat_ofNat']
      omega
    have hlow : (UInt16.ofNat (c % 0x400 + 0xdc00)).toNat = 0xdc00 + c % 0x400 := by
      rw [UInt16.toNat_ofNat']
      omega
    have hucs4 := surrogateToUcs4_eq hhigh hlow
    generalize UInt16.ofNat (c / 0x400 + 0xd7c0) = high at hunits hhigh hucs4
    generalize UInt16.ofNat (c % 0x400 + 0xdc00) = low at hunits hlow hucs4
    use high, [low], hunits
    intro rest
    have hone : ¬ high < 0x80 := by
      rw [UInt16.lt_iff_toNat_lt, hhigh]
      change ¬ _ < 0x80
      omega
    have htwo : ¬ high < 0x0800 := by
      rw [UInt16.lt_iff_toNat_lt, hhigh]
      change ¬ _ < 0x800
      omega
    have his : isSurrogate high.toNat = true := by
      rw [isSurrogate_iff]
      omega
    have hpair : isHighSurrogate high = true ∧ isLowSurrogate low = true := by
      rw [isHighSurrogate_iff, isLowSurrogate_iff]
      omega
    have hc : surrogateToUcs4 high low = c := by omega
    have hc1 : ¬ c < 0x80 := by omega
    have hc2 : ¬ c < 0x800 := by omega
    have hhead : (0xf0 : UInt8) ||| (UInt8.ofNat (c / 2 ^ 18) &&& 0xf)
        = UInt8.ofNat (0xf0 + c / 0x40000) := head_octets.2.2 ⟨c / 0x40000, by omega⟩
    unfold toUtf8 octetsOf
    rw [if_neg hone, if_neg htwo, his, if_neg hc1, if_neg hc2, if_neg hbmp]
    simp only [List.cons_append, List.nil_append, hpair.1, hpair.2, hc,
      Nat.shiftRight_eq_div_pow, tail_octet, Bool.not_true, Bool.or_self, Bool.false_eq_true,
      if_false]
    rw [hhead]

/-- `fromUtf8` reads the sequence of a code point, and no octets behind it. -/
theorem fromUtf8_sequence (h : Scalar c) (rest : QByteArray) :
  ∃ b tail, octetsOf c = b :: tail
    ∧ fromUtf8 b (tail ++ rest) = .char (appendUcs4 c) (tail.length + 1)
  := by
  obtain ⟨u, us, hunits, hwrite⟩ := toUtf8_appendUcs4 h
  obtain ⟨b, tail, units, hsequence, hsrc, -, hread⟩ := fromUtf8_toUtf8 (hwrite [])
  rw [List.append_nil, List.append_nil] at hsrc
  use b, tail, hsequence
  rw [hread rest, hunits, hsrc, hsequence, List.length_cons]

theorem continuation_scalar {charsNeeded minUc count uc n : ℕ}
    (h : continuation charsNeeded minUc count uc src = .char units n) :
  ∃ c, Scalar c ∧ units = appendUcs4 c
  := by
  induction count generalizing uc src with
  | zero =>
    obtain ⟨-, hsurrogate, hmax, hunits, -⟩ := finish_char h
    use uc
    constructor
    · rw [← Bool.not_eq_true, isSurrogate_iff] at hsurrogate
      rw [Scalar]
      omega
    · apply hunits
  | succ count ih =>
    obtain ⟨b, rest, -, -, hrest⟩ := continuation_succ_char h
    apply ih hrest

theorem appendUcs4_octet (b : UInt8) :
  Scalar b.toNat ∧ [b.toUInt16] = appendUcs4 b.toNat
  := by
  have hb := b.toNat_lt
  constructor
  · left
    omega
  · rw [appendUcs4, if_pos (by omega), List.cons.injEq, ← UInt16.toNat_inj, UInt8.toNat_toUInt16,
      UInt16.toNat_ofNat', Nat.mod_eq_of_lt (by omega)]
    use rfl

/-- What `fromUtf8` reads is the sequence of a code point. -/
theorem sequence_of_fromUtf8 {b : UInt8} {n : ℕ} (h : fromUtf8 b src = .char units n) :
  ∃ c, Scalar c ∧ units = appendUcs4 c ∧ b :: src = octetsOf c ++ src.drop (n - 1)
  := by
  by_cases hb : b < 0x80
  · obtain ⟨hscalar, hsequence⟩ := sequence_ascii hb
    rw [fromUtf8, if_pos hb] at h
    cases h
    use b.toNat, hscalar, (appendUcs4_octet b).2
    rw [hsequence]
    rfl
  · obtain ⟨u, us, rfl, -, hwrite⟩ := toUtf8_fromUtf8 (UInt8.not_lt.mp hb) h
    have hscalar : ∃ c, Scalar c ∧ u :: us = appendUcs4 c := by
      rcases fromUtf8_cases b with hall | hall | ⟨count, minUc, uc, -, -, hall⟩
      · rw [hall] at h
        obtain ⟨hunits, -⟩ := Result.char.inj h
        rw [← hunits]
        use b.toNat
        apply appendUcs4_octet
      · rw [hall] at h
        cases h
      · rw [hall] at h
        apply continuation_scalar h
    obtain ⟨c, hc, hunits⟩ := hscalar
    obtain ⟨u', us', hunits', hwrite'⟩ := toUtf8_appendUcs4 hc
    rw [hunits'] at hunits
    obtain ⟨rfl, rfl⟩ := List.cons.inj hunits
    have hoctets := (hwrite []).symm.trans (hwrite' [])
    rw [Option.some.injEq, Prod.mk.injEq] at hoctets
    use c, hc, hunits'.symm
    rw [← hoctets.1, List.cons_append, List.take_append_drop]

/-- Sequences are seen from their octets. -/
theorem sequence_append_inj {c' : ℕ} {rest rest' : QByteArray} (h : Scalar c) (h' : Scalar c')
    (heq : octetsOf c ++ rest = octetsOf c' ++ rest') :
  appendUcs4 c = appendUcs4 c' ∧ rest = rest'
  := by
  obtain ⟨b, tail, hsequence, hread⟩ := fromUtf8_sequence h rest
  obtain ⟨b', tail', hsequence', hread'⟩ := fromUtf8_sequence h' rest'
  rw [hsequence, hsequence'] at heq
  obtain ⟨rfl, hoctets⟩ := List.cons.inj heq
  rw [show tail ++ rest = tail' ++ rest' from hoctets, hread'] at hread
  obtain ⟨hunits, hlength⟩ := Result.char.inj hread
  use hunits.symm
  apply (List.append_inj hoctets (Nat.succ.inj hlength).symm).2

theorem wellFormed_sequence_iff (h : Scalar c) (rest : QByteArray) :
  WellFormed (octetsOf c ++ rest) ↔ WellFormed rest
  := by
  constructor
  · intro htext
    generalize hbytes : octetsOf c ++ rest = bytes at htext
    cases htext with
    | nil =>
      obtain ⟨hnil, -⟩ := List.append_eq_nil_iff.mp hbytes
      cases sequence_ne_nil c hnil
    | cons h' hrest =>
      rw [(sequence_append_inj h h' hbytes).2]
      apply hrest
  · apply WellFormed.cons h

/-- A text goes on with a character where it does not end. -/
theorem wellFormed_cons_iff (b : UInt8) (src : QByteArray) :
  WellFormed (b :: src) ↔
    ∃ units n, fromUtf8 b src = .char units n ∧ WellFormed (src.drop (n - 1))
  := by
  constructor
  · intro h
    generalize hbytes : b :: src = bytes at h
    cases h with
    | nil => cases hbytes
    | cons hc hrest =>
      rename_i c rest
      obtain ⟨b', tail, hsequence, hread⟩ := fromUtf8_sequence hc rest
      rw [hsequence] at hbytes
      obtain ⟨rfl, hsrc⟩ := List.cons.inj hbytes
      rw [hsrc]
      use appendUcs4 c, tail.length + 1, hread
      rw [Nat.add_sub_cancel]
      change WellFormed ((tail ++ rest).drop tail.length)
      rw [List.drop_left]
      apply hrest
  · rintro ⟨units, n, hread, hrest⟩
    obtain ⟨c, hc, -, hbytes⟩ := sequence_of_fromUtf8 hread
    rw [hbytes]
    apply WellFormed.cons hc hrest

/-! ### Validation -/

theorem lt_of_top_bit (b : UInt8) :
  b &&& 0x80 = 0 → b < 0x80
  := by
  revert b
  apply forall_octet
  set_option maxRecDepth 10000 in
  decide

theorem validate_iff (isValidAscii : Bool) (bytes : QByteArray) :
  (validate isValidAscii bytes).isValidUtf8 = true ↔ WellFormed bytes
  := by
  induction isValidAscii, bytes using validate.induct with
  | case1 isValidAscii =>
    rw [validate]
    exact ⟨fun _ => .nil, fun _ => rfl⟩
  | case2 isValidAscii b src hascii ih =>
    obtain ⟨hscalar, hsequence⟩ := sequence_ascii (lt_of_top_bit b hascii)
    rw [validate, if_pos hascii, ih, ← wellFormed_sequence_iff hscalar src, hsequence]
    rfl
  | case3 isValidAscii b src hmore units n hread ih =>
    rw [validate, if_neg hmore, hread, wellFormed_cons_iff]
    dsimp only
    rw [ih]
    constructor
    · intro hrest
      use units, n, hread, hrest
    · rintro ⟨units', n', hread', hrest⟩
      obtain ⟨-, rfl⟩ := Result.char.inj (hread.symm.trans hread')
      apply hrest
  | case4 isValidAscii b src hmore hnone =>
    rw [validate, if_neg hmore, wellFormed_cons_iff]
    split
    next units n hread => cases hnone units n hread
    next =>
      constructor
      · intro hfalse
        cases hfalse
      · rintro ⟨units, n, hread, -⟩
        cases hnone units n hread

theorem decodeView_of_char {b : UInt8} {n : ℕ} (h : fromUtf8 b src = .char units n) :
  decodeView (b :: src)
    = (units ++ (decodeView (src.drop (n - 1))).1, (decodeView (src.drop (n - 1))).2)
  := by
  rw [decodeView, h]

theorem decodeView_of_not {b : UInt8} (h : ∀ units n, fromUtf8 b src ≠ .char units n) :
  decodeView (b :: src) = (0xfffd :: (decodeView src).1, (decodeView src).2 + 1)
  := by
  rw [decodeView]
  split
  next units n hread => cases h units n hread
  next => rfl

/-- The conversion meets no error in the texts of UTF-8. -/
theorem decodeView_iff (bytes : QByteArray) :
  (decodeView bytes).2 = 0 ↔ WellFormed bytes
  := by
  induction bytes using decodeView.induct with
  | case1 =>
    rw [decodeView]
    exact ⟨fun _ => .nil, fun _ => rfl⟩
  | case2 b src units n hread ih =>
    rw [decodeView_of_char hread, wellFormed_cons_iff, ih]
    constructor
    · intro hrest
      use units, n, hread, hrest
    · rintro ⟨units', n', hread', hrest⟩
      obtain ⟨-, rfl⟩ := Result.char.inj (hread.symm.trans hread')
      apply hrest
  | case3 b src hnone ih =>
    rw [decodeView_of_not hnone, wellFormed_cons_iff]
    constructor
    · intro hzero
      cases hzero
    · rintro ⟨units, n, hread, -⟩
      cases hnone units n hread

/-- The octets of the byte order mark are those of a code point. -/
theorem sequence_bom :
  Scalar 0xfeff ∧ octetsOf 0xfeff = utf8bom
  := by
  constructor
  · right
    decide
  · rfl

theorem convertViewToUnicode_iff (bytes : QByteArray) :
  (convertViewToUnicode bytes).2 = 0 ↔ WellFormed bytes
  := by
  rw [convertViewToUnicode, decodeView_iff]
  split
  next hbom =>
    obtain ⟨rest, rfl⟩ := List.isPrefixOf_iff_prefix.mp hbom
    rw [← sequence_bom.2, wellFormed_sequence_iff sequence_bom.1]
    rfl
  next => rfl

/-! ### Round trips -/

theorem decodeView_sequence (h : Scalar c) (rest : QByteArray) :
  decodeView (octetsOf c ++ rest) = (appendUcs4 c ++ (decodeView rest).1, (decodeView rest).2)
  := by
  obtain ⟨b, tail, hsequence, hread⟩ := fromUtf8_sequence h rest
  rw [hsequence, List.cons_append, decodeView_of_char hread, Nat.add_sub_cancel, List.drop_left]

theorem convertViewFromUnicode_append (h : Scalar c) (rest : QString) :
  convertViewFromUnicode (appendUcs4 c ++ rest) = octetsOf c ++ convertViewFromUnicode rest
  := by
  obtain ⟨u, us, hunits, hwrite⟩ := toUtf8_appendUcs4 h
  rw [hunits, List.cons_append, convertViewFromUnicode.eq_def]
  dsimp only
  split
  next bytes src' hsome =>
    rw [hwrite, Option.some.injEq, Prod.mk.injEq] at hsome
    rw [hsome.1, hsome.2]
  next hnone =>
    rw [hwrite] at hnone
    cases hnone

/-- A string without unpaired surrogates begins with the code units of a code point. -/
theorem paired_cases {s : QString} (h : paired s = true) :
  s = [] ∨ ∃ c rest, Scalar c ∧ s = appendUcs4 c ++ rest ∧ paired rest = true
  := by
  cases s with
  | nil => exact .inl rfl
  | cons u tail =>
    right
    by_cases hhigh : isHighSurrogate u = true
    · obtain ⟨low, rest, rfl, hlow⟩ := low_of_paired h hhigh
      rw [paired_pair hhigh, hlow, Bool.true_and] at h
      obtain ⟨b, bytes, -, hwrite⟩ := toUtf8_pair hhigh hlow
      obtain ⟨-, -, units, -, hsrc, hunits, -⟩ := fromUtf8_toUtf8 (hwrite [])
      rw [List.append_nil] at hsrc
      rw [← hsrc] at hunits
      rw [isHighSurrogate_iff] at hhigh
      rw [isLowSurrogate_iff] at hlow
      have ha : u.toNat = 0xd800 + (u.toNat - 0xd800) := by omega
      have hb : low.toNat = 0xdc00 + (low.toNat - 0xdc00) := by omega
      have hc := surrogateToUcs4_eq ha hb
      use surrogateToUcs4 u low, rest
      constructor
      · rw [Scalar]
        omega
      · use congrArg (· ++ rest) hunits.symm, h
    · have hsingle := not_isSurrogate_of_paired h (Bool.not_eq_true _ ▸ hhigh)
      rw [paired_cons hsingle] at h
      use u.toNat, tail
      constructor
      · have hu := u.toNat_lt
        rw [← Bool.not_eq_true, isSurrogate_iff] at hsingle
        rw [Scalar]
        omega
      · rw [appendUcs4_unit]
        use rfl, h

/-- What the octets of a string without unpaired surrogates decode to. -/
theorem decodeView_convertView {s : QString} (h : paired s = true) :
  decodeView (convertViewFromUnicode s) = (s, 0)
  := by
  obtain ⟨n, hn⟩ : ∃ n, s.length ≤ n := ⟨s.length, Nat.le_refl _⟩
  induction n generalizing s with
  | zero =>
    obtain rfl := List.length_eq_zero_iff.mp (Nat.le_zero.mp hn)
    rw [convertViewFromUnicode, decodeView]
  | succ n ih =>
    rcases paired_cases h with rfl | ⟨c, rest, hc, rfl, hrest⟩
    · rw [convertViewFromUnicode, decodeView]
    · have hpos := List.length_pos_iff.mpr (appendUcs4_ne_nil c)
      rw [List.length_append] at hn
      rw [convertViewFromUnicode_append hc, decodeView_sequence hc, ih hrest (by omega)]

theorem convertViewToUnicode_convertView {s : QString} (h : paired s = true)
    (hbom : s.head? ≠ some 0xfeff) :
  convertViewToUnicode (convertViewFromUnicode s) = (s, 0)
  := by
  have hnot : ¬ utf8bom.isPrefixOf (convertViewFromUnicode s) = true := by
    intro hstarts
    obtain ⟨rest, hoctets⟩ := List.isPrefixOf_iff_prefix.mp hstarts
    rcases paired_cases h with rfl | ⟨c, s', hc, rfl, -⟩
    · rw [convertViewFromUnicode] at hoctets
      cases hoctets
    · rw [convertViewFromUnicode_append hc, ← sequence_bom.2] at hoctets
      rw [← (sequence_append_inj sequence_bom.1 hc hoctets).1] at hbom
      apply hbom
      rfl
  rw [convertViewToUnicode, if_neg hnot, decodeView_convertView h]

theorem convertViewFromUnicode_decodeView {bytes : QByteArray} (h : WellFormed bytes) :
  convertViewFromUnicode (decodeView bytes).1 = bytes
  := by
  induction h with
  | nil => rw [decodeView, convertViewFromUnicode]
  | cons hc hrest ih => rw [decodeView_sequence hc, convertViewFromUnicode_append hc, ih]

/-- The codec is exact: octets are valid if and only if they are a text of UTF-8, and this if and
only if they decode without an error; a string without unpaired surrogates and without a byte order
mark is what its octets decode to; and octets that are valid and begin with no byte order mark are
those of what they decode to. -/
theorem codec_exact :
  (∀ bytes, (isValidUtf8 bytes).isValidUtf8 = true ↔ WellFormed bytes)
    ∧ (∀ bytes, WellFormed bytes ↔ (convertViewToUnicode bytes).2 = 0)
    ∧ (∀ s, paired s = true → s.head? ≠ some 0xfeff →
      (convertViewToUnicode (convertViewFromUnicode s)).1 = s)
    ∧ ∀ bytes, (isValidUtf8 bytes).isValidUtf8 = true → utf8bom.isPrefixOf bytes = false →
      convertViewFromUnicode (convertViewToUnicode bytes).1 = bytes
  := by
  constructor
  · apply validate_iff
  constructor
  · intro bytes
    rw [convertViewToUnicode_iff]
  constructor
  · intro s h h_bom
    rw [convertViewToUnicode_convertView h h_bom]
  · intro bytes h_valid h_bom
    rw [isValidUtf8, validate_iff] at h_valid
    rw [convertViewToUnicode, h_bom]
    apply convertViewFromUnicode_decodeView h_valid

/-- The octets of a letter outside of ASCII decode to it. -/
theorem codec_exact_letter :
  (convertViewToUnicode (convertViewFromUnicode [0xe9])).1 = [0xe9]
  := codec_exact.2.2.1 [0xe9] (by decide) (by decide)

end QUtf8
