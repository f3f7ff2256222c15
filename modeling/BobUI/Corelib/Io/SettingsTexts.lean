import BobUI.Corelib.Io.Settings
import BobUI.Corelib.Text.Utf8Chunks
import BobUI.Corelib.Text.Utf8Inverse

/-!
# The texts of keys and values

What `iniUnescapedKey` and `iniUnescapedStringList` read of the texts that `iniEscapedKey` and
`iniEscapedString` write.  A key is read back, and so is a string value, except that its first
character that is not escaped is lost where it is U+FEFF: the decoder takes it for a byte order
mark.
-/

namespace QSettings

/-! ### Text in US-ASCII -/

theorem toLatin1_latin1 (a : QByteArray) :
  toLatin1 (latin1 a) = a
  := by
  rw [toLatin1, latin1, List.map_map]
  apply List.map_id''
  intro b
  have hle : b.toUInt16 ≤ 0xff := by
    rw [UInt16.le_iff_toNat_le, UInt8.toNat_toUInt16]
    exact Nat.le_of_lt_succ b.toNat_lt
  rw [Function.comp_apply, if_pos hle, UInt8.toUInt8_toUInt16]

theorem decode_ascii (r : UInt16) {a : QByteArray} (h : ∀ b ∈ a, b < 0x80) :
  QUtf8.decode r a = ⟨latin1 a, [], 0⟩
  := by
  induction a with
  | nil =>
    rw [QUtf8.decode]
    rfl
  | cons b a ih =>
    rw [List.forall_mem_cons] at h
    rw [QUtf8.decode_of_char (if_pos h.1), Nat.sub_self, List.drop_zero, ih h.2]
    rfl

theorem fromUtf8_ascii {a : QByteArray} (h : ∀ b ∈ a, b < 0x80) :
  fromUtf8 a = latin1 a
  := by
  have hbom : QUtf8.utf8bom.isPrefixOf a = false := by
    cases a with
    | nil => rfl
    | cons b a =>
      rw [List.forall_mem_cons] at h
      have hb : ¬ (0xef : UInt8) = b := by
        rintro rfl
        exact absurd h.1 (by decide)
      change (0xef == b && _) = false
      rw [beq_eq_false_iff_ne.mpr hb, Bool.false_and]
  have hrest : ∀ s : QUtf8.State, s.flags.stateless = true → (s.decodeRest a).1 = latin1 a := by
    intro s hs
    rw [QUtf8.State.decodeRest, if_pos hs, decode_ascii _ h]
    exact List.append_nil _
  rw [fromUtf8, QUtf8.convertToUnicode, hbom]
  split
  next hnil =>
    rw [hnil]
    rfl
  next => exact hrest (QUtf8.State.new ⟨true, false, false⟩) rfl

/-! ### Keys -/

theorem toUShort_hexDigits {digits : QByteArray} (hne : digits ≠ [])
    (h : ∀ d ∈ digits, QByteArray.isDigitForBase d 16 = true)
    (hlt : QByteArray.digitsValue 16 digits < 0x10000) :
  toUShort (latin1 digits) = some (UInt16.ofNat (QByteArray.digitsValue 16 digits))
  := by
  rw [toUShort, toLatin1_latin1, QByteArray.toULongLong_digits hne h (by omega)]
  exact if_pos hlt

theorem toHexUpper_digit (value : ℕ) :
  QByteArray.isDigitForBase (toHexUpper value) 16 = true
    ∧ QByteArray.digitValue (toHexUpper value) = value % 16 ∧ toHexUpper value ≠ 0x55
    ∧ toHexUpper value < 0x80
  := by
  have hall : ∀ d : Fin 16, QByteArray.isDigitForBase (toHexUpper d.val) 16 = true
      ∧ QByteArray.digitValue (toHexUpper d.val) = d.val ∧ toHexUpper d.val ≠ 0x55
      ∧ toHexUpper d.val < 0x80 := by
    decide
  have hdigit := hall ⟨value % 16, Nat.mod_lt _ (by decide)⟩
  have hmod : toHexUpper (value % 16) = toHexUpper value := by
    rw [toHexUpper, toHexUpper, Nat.mod_mod]
  dsimp only at hdigit
  rwa [hmod] at hdigit

variable {ch : UInt16} {next : Bool} {s : QUtf8.State} {octets : QByteArray} {str : QString}

theorem unescapedKey_plain (hslash : ch ≠ 0x5c) (hpercent : ch ≠ 0x25) (rest : QString) :
  unescapedKey (ch :: rest) = ch :: unescapedKey rest
  := by
  rw [unescapedKey, if_neg hslash, if_pos]
  rw [decide_eq_true hpercent]
  rfl

/-- The digits behind a '%', without and with a 'U'. -/
theorem unescapedKey_digits {a b : UInt16} (ha : a ≠ 0x55) (h : toUShort [a, b] = some ch)
    (rest : QString) :
  unescapedKey (0x25 :: a :: b :: rest) = ch :: unescapedKey rest
  := by
  have hsize : ¬ (a :: b :: rest).length < 0 + 2 := by
    rw [List.length_cons, List.length_cons]
    omega
  have hhead : ¬ (a :: b :: rest).head? = some 0x55 := by
    rwa [List.head?_cons, Option.some.injEq]
  rw [unescapedKey, if_neg (by decide), if_neg (by simp), if_neg hhead]
  dsimp only [List.drop, List.take]
  rw [if_neg hsize, h]

theorem unescapedKey_unicode {a b c d : UInt16} (h : toUShort [a, b, c, d] = some ch)
    (rest : QString) :
  unescapedKey (0x25 :: 0x55 :: a :: b :: c :: d :: rest) = ch :: unescapedKey rest
  := by
  have hsize : ¬ ((0x55 : UInt16) :: a :: b :: c :: d :: rest).length < 1 + 4 := by
    simp only [List.length_cons]
    omega
  rw [unescapedKey, if_neg (by decide), if_neg (by simp), if_pos (List.head?_cons ..)]
  dsimp only [List.drop, List.take]
  rw [if_neg hsize, h]

theorem isAsciiLetterOrNumber_bounds
    (h : (isAsciiLetterOrNumber ch || ch = 0x5f || ch = 0x2d || ch = 0x2e) = true) :
  ch.toNat < 0x80 ∧ ch ≠ 0x5c ∧ ch ≠ 0x25
  := by
  simp only [isAsciiLetterOrNumber, Bool.or_eq_true, Bool.and_eq_true, decide_eq_true_eq,
    UInt16.le_iff_toNat_le, ne_eq, ← UInt16.toNat_inj, UInt16.reduceToNat] at h ⊢
  omega

theorem toUInt16_toUInt8 (h : ch.toNat < 0x100) :
  ch.toUInt8.toUInt16 = ch
  := by
  rw [← UInt16.toNat_inj, UInt8.toNat_toUInt16, UInt16.toNat_toUInt8]
  exact Nat.mod_eq_of_lt h

theorem unescapedKey_char (ch : UInt16) (rest : QString) :
  unescapedKey (latin1 (escapedKeyChar ch) ++ rest) = ch :: unescapedKey rest
  := by
  unfold escapedKeyChar
  split
  next hslash =>
    rw [hslash]
    change unescapedKey (0x5c :: rest) = _
    rw [unescapedKey, if_pos rfl]
  next =>
    split
    next hplain =>
      obtain ⟨hlt, hslash, hpercent⟩ := isAsciiLetterOrNumber_bounds hplain
      change unescapedKey (ch.toUInt8.toUInt16 :: rest) = _
      rw [toUInt16_toUInt8 (by omega), unescapedKey_plain hslash hpercent]
    next =>
      split
      next hle =>
        rw [UInt16.le_iff_toNat_le] at hle
        change _ ≤ 0xff at hle
        obtain ⟨hhigh, hvalue, hne, -⟩ := toHexUpper_digit (ch.toNat / 16)
        obtain ⟨hlow, hvalue', -, -⟩ := toHexUpper_digit ch.toNat
        have hdigits : QByteArray.digitsValue 16
            [toHexUpper (ch.toNat / 16), toHexUpper ch.toNat] = ch.toNat := by
          simp only [QByteArray.digitsValue, List.foldl_cons, List.foldl_nil, hvalue, hvalue']
          omega
        apply unescapedKey_digits
        · intro heq
          apply hne
          rw [← UInt8.toUInt8_toUInt16 (toHexUpper (ch.toNat / 16)), heq]
          rfl
        · have hread := @toUShort_hexDigits [toHexUpper (ch.toNat / 16), toHexUpper ch.toNat]
            (List.cons_ne_nil _ _) (by simp [hhigh, hlow]) (by rw [hdigits]; omega)
          rw [hdigits, UInt16.ofNat_toNat] at hread
          exact hread
      next =>
        obtain ⟨h1, hvalue₁, -, -⟩ := toHexUpper_digit (ch.toNat / 0x1000)
        obtain ⟨h2, hvalue₂, -, -⟩ := toHexUpper_digit (ch.toNat / 0x100)
        obtain ⟨h3, hvalue₃, -, -⟩ := toHexUpper_digit (ch.toNat / 0x10)
        obtain ⟨h4, hvalue₄, -, -⟩ := toHexUpper_digit ch.toNat
        have hlt := ch.toNat_lt
        have hdigits : QByteArray.digitsValue 16
            [toHexUpper (ch.toNat / 0x1000), toHexUpper (ch.toNat / 0x100),
              toHexUpper (ch.toNat / 0x10), toHexUpper ch.toNat] = ch.toNat := by
          simp only [QByteArray.digitsValue, List.foldl_cons, List.foldl_nil, hvalue₁, hvalue₂,
            hvalue₃, hvalue₄]
          omega
        have hread := @toUShort_hexDigits
          [toHexUpper (ch.toNat / 0x1000), toHexUpper (ch.toNat / 0x100),
            toHexUpper (ch.toNat / 0x10), toHexUpper ch.toNat]
          (List.cons_ne_nil _ _) (by simp [h1, h2, h3, h4]) (by rw [hdigits]; omega)
        rw [hdigits, UInt16.ofNat_toNat] at hread
        exact unescapedKey_unicode hread rest

theorem escapedKeyChar_ascii (ch : UInt16) :
  ∀ b ∈ escapedKeyChar ch, b < 0x80
  := by
  have hdigit : ∀ value, toHexUpper value < 0x80 := fun value => (toHexUpper_digit value).2.2.2
  unfold escapedKeyChar
  split
  next => simp
  next =>
    split
    next hplain =>
      have hlt := (isAsciiLetterOrNumber_bounds hplain).1
      rw [List.forall_mem_singleton, UInt8.lt_iff_toNat_lt, UInt16.toNat_toUInt8]
      change _ < 0x80
      omega
    next =>
      split
      next => simp [hdigit]
      next => simp [hdigit]

/-- A key is read back. -/
theorem iniUnescapedKey_iniEscapedKey (key : QString) :
  iniUnescapedKey (iniEscapedKey key) = key
  := by
  have hascii : ∀ b ∈ iniEscapedKey key, b < 0x80 := by
    intro b hb
    obtain ⟨ch, -, hch⟩ := List.mem_flatMap.mp hb
    exact escapedKeyChar_ascii ch b hch
  rw [iniUnescapedKey, fromUtf8_ascii hascii]
  clear hascii
  induction key with
  | nil =>
    change unescapedKey [] = []
    rw [unescapedKey]
  | cons ch key ih =>
    rw [iniEscapedKey, List.flatMap_cons, latin1, List.map_append]
    change unescapedKey (latin1 (escapedKeyChar ch) ++ latin1 (iniEscapedKey key)) = _
    rw [unescapedKey_char, ih]

/-! ### The decoder of a value -/

/-- The octets of a character, whatever follows them. -/
structure Octets (octets : QByteArray) (units : QString) : Prop where
  char : ∃ b tail, octets = b :: tail
    ∧ ∀ rest, QUtf8.fromUtf8 b (tail ++ rest) = .char units octets.length

/-- A decoder that expects the beginning of a character. -/
structure Ready (s : QUtf8.State) : Prop where
  flags : s.flags = ⟨false, false, false⟩
  stateData : s.stateData = []

theorem Ready.done (h : Ready s) :
  Ready { s with headerDone := true }
  := ⟨h.flags, h.stateData⟩

theorem Ready.convertToUnicode (h : Ready s) (hdone : s.headerDone = true) (input : QByteArray) :
  QUtf8.convertToUnicode input s = ((QUtf8.decode s.replacement input).units,
    s.after (QUtf8.decode s.replacement input))
  := by
  have hstateless : s.flags.stateless = false := by
    rw [h.flags]
  have hbom : s.bomDone = true := by
    rw [QUtf8.State.bomDone, hdone, Bool.true_or]
  rw [QUtf8.convertToUnicode_of_nil hstateless h.stateData hbom, QUtf8.decodeRest_eq hstateless]

/-- A character in front is decoded first; a byte order mark where nothing was decoded yet is left
out. -/
theorem Ready.convertToUnicode_char (h : Ready s) {units : QString} (hoctets : Octets octets units)
    (more : QByteArray) :
  QUtf8.convertToUnicode (octets ++ more) s
    = ((if s.headerDone then units else QUtf8.eatBom units)
        ++ (QUtf8.convertToUnicode more { s with headerDone := true }).1,
      (QUtf8.convertToUnicode more { s with headerDone := true }).2)
  := by
  obtain ⟨b, tail, rfl, hchar⟩ := hoctets.char
  have hdrop : (tail ++ more).drop ((b :: tail).length - 1) = more := List.drop_left
  have hdecode : ∀ r, QUtf8.decode r (b :: tail ++ more)
      = QUtf8.Decoded.andThen ⟨units, [], 0⟩ (QUtf8.decode r more) := by
    intro r
    rw [List.cons_append, QUtf8.decode_of_char (hchar more), hdrop]
  rw [h.done.convertToUnicode rfl more]
  cases hdone : s.headerDone with
  | true =>
    have hsame : ({ s with headerDone := true } : QUtf8.State) = s := by
      rw [← hdone]
    rw [h.convertToUnicode hdone, hdecode, hsame, if_pos rfl]
    simp [QUtf8.Decoded.andThen, QUtf8.State.after]
  | false =>
    have hstateless : s.flags.stateless = false := by
      rw [h.flags]
    have hbom : s.bomDone = false := by
      rw [QUtf8.State.bomDone, hdone, h.flags]
      rfl
    have heq : s.stateData ++ (b :: tail ++ more) = b :: (tail ++ more) := by
      rw [h.stateData]
      rfl
    have hafter : (b :: tail ++ more).drop (b :: tail).length = more := List.drop_left
    rw [QUtf8.convertToUnicode_of_cons hstateless
      (show b :: tail ++ more ≠ [] from List.cons_ne_nil _ _) (.inr hbom)
      (by rw [h.stateData]; trivial) heq, hchar]
    dsimp only
    rw [h.stateData, List.length_nil, Nat.sub_zero, hafter,
      @QUtf8.decodeRest_eq ⟨s.flags, true, [], s.invalidChars⟩ hstateless, hbom]

namespace Unescaping

/-- The variables after a character was decoded. -/
def readChar (s : Unescaping) (units : QString) : Unescaping :=
  { s with
    stringResult := s.stringResult
      ++ if s.fromUtf8.headerDone then units else QUtf8.eatBom units
    fromUtf8 := { s.fromUtf8 with headerDone := true } }

theorem decode_nil (s : Unescaping) :
  s.decode [] = s
  := by
  rw [decode, QUtf8.convertToUnicode, if_pos rfl]
  dsimp only
  rw [List.append_nil]

theorem decode_char {s : Unescaping} (h : Ready s.fromUtf8) {octets : QByteArray} {units : QString}
    (hoctets : Octets octets units) (more : QByteArray) :
  s.decode (octets ++ more) = (s.readChar units).decode more
  := by
  rw [decode, h.convertToUnicode_char hoctets, decode]
  dsimp only [readChar]
  rw [List.append_assoc]

/-- A run of ordinary octets in front is decoded at once. -/
theorem unescape_run (s : Unescaping) (str : QByteArray) :
  s.unescape str = (s.decode (str.takeWhile fun ch => !endsRun ch)).unescape
    (str.drop (str.takeWhile fun ch => !endsRun ch).length)
  := by
  cases str with
  | nil =>
    rw [List.takeWhile_nil, decode_nil]
    rfl
  | cons c str =>
    cases hc : endsRun c with
    | true =>
      rw [List.takeWhile_cons_of_neg (by simp [hc]), decode_nil]
      rfl
    | false =>
      have hends := hc
      rw [endsRun, Bool.or_eq_false_iff, Bool.or_eq_false_iff, decide_eq_false_iff_not,
        decide_eq_false_iff_not, decide_eq_false_iff_not] at hends
      have hcomma : ¬ (decide (c = 0x2c) && !s.inQuotedString) = true := by
        simp [hends.2]
      rw [List.takeWhile_cons_of_pos (by simp [hc]), unescape.eq_def]
      dsimp only
      rw [if_neg hends.1.1, if_neg hends.1.2, if_neg hcomma]
      rfl

/-- A character whose octets are ordinary ones is decoded. -/
theorem unescape_char {s : Unescaping} (h : Ready s.fromUtf8) {octets : QByteArray}
    {units : QString} (hoctets : Octets octets units)
    (hordinary : (∀ b ∈ octets, endsRun b = false)
      ∨ octets = [0x2c] ∧ s.inQuotedString = true) (rest : QByteArray) :
  s.unescape (octets ++ rest) = (s.readChar units).unescape rest
  := by
  rw [unescape_run (s.readChar units) rest, ← decode_char h hoctets]
  rcases hordinary with hordinary | ⟨rfl, hquoted⟩
  · have hall : ∀ b ∈ octets, (!endsRun b) = true := by
      intro b hb
      rw [hordinary b hb]
      rfl
    rw [unescape_run s, List.takeWhile_append_of_pos hall, List.length_append,
      ← List.drop_drop, List.drop_left]
  · have hcomma : ¬ (decide ((0x2c : UInt8) = 0x2c) && !s.inQuotedString) = true := by
      simp [hquoted]
    change s.unescape (0x2c :: rest) = _
    rw [unescape.eq_def]
    dsimp only
    rw [if_neg (by decide), if_neg (by decide), if_neg hcomma]
    rfl

end Unescaping

/-! ### Escaped characters -/

/-- A character that the encoder does not see. -/
def isEscaped (escapeNextIfDigit : Bool) (ch : UInt16) : Bool :=
  (escapeNextIfDigit && isHexDigit ch) || ch ≤ 0x1f || ch = 0x22 || ch = 0x5c

/-- Whether a digit after a character has to be escaped. -/
def escapesDigit (escapeNextIfDigit : Bool) (ch : UInt16) : Bool :=
  (escapedChar true escapeNextIfDigit none ch).2.1

/-- An octet that goes on with the digits of an escape. -/
def isDigit (b : UInt8) : Bool :=
  (fromHex b).isSome

/-- The three kinds of escapes: a letter, digits of a number, and that of U+0000. -/
inductive Escape (ch : UInt16) : QByteArray → Bool → Prop where
  | code {code : UInt8} (h : escapeCode code = some ch) (next : Bool) : Escape ch [0x5c, code] next
  | number {digits : QByteArray} (h_ne : digits ≠ []) (h_digits : ∀ d ∈ digits, isDigit d = true)
    (h_value : Unescaping.escapeVal fromHex 4 digits = ch) : Escape ch (0x5c :: 0x78 :: digits) true
  | null (h : ch = 0) : Escape ch [0x5c, 0x30] true

theorem isEscaped_ascii (h : isEscaped next ch = true) :
  ch.toNat < 0x80
  := by
  simp only [isEscaped, isHexDigit, Bool.or_eq_true, Bool.and_eq_true, decide_eq_true_eq,
    UInt16.le_iff_toNat_le, ← UInt16.toNat_inj, UInt16.reduceToNat] at h
  omega

/-- An escape that leaves the state of the encoder. -/
def Written (ch : UInt16) (e : QByteArray × Bool × Option UInt16) : Prop :=
  Escape ch e.1 e.2.1 ∧ e.2.2 = none

theorem escapedChar_escape (h : isEscaped next ch = true) :
  Escape ch (escapedChar true next none ch).1 (escapesDigit next ch)
    ∧ (escapedChar true next none ch).2.2 = none
  := by
  have hnumber : ∀ n : Fin 0x80, hexNumber n.val ≠ []
      ∧ (hexNumber n.val).all isDigit = true
      ∧ Unescaping.escapeVal fromHex 4 (hexNumber n.val) = UInt16.ofNat n.val := by
    decide
  obtain ⟨hne, hdigits, hvalue⟩ := hnumber ⟨ch.toNat, isEscaped_ascii h⟩
  rw [UInt16.ofNat_toNat] at hvalue
  have hhex : Written ch ([0x5c, 0x78] ++ hexNumber ch.toNat, true, none) :=
    ⟨.number hne (List.all_eq_true.mp hdigits) hvalue, rfl⟩
  have hcode : ∀ {c : UInt16} {code : UInt8}, ch = c → escapeCode code = some c →
      Written ch ([0x5c, code], false, none) := by
    rintro c code rfl hc
    exact ⟨.code hc _, rfl⟩
  change Written ch (escapedChar true next none ch)
  unfold escapedChar
  apply iteInduction fun _ => hhex
  intro hdigit
  apply iteInduction fun hch => ⟨.null hch, rfl⟩
  intro _
  apply iteInduction fun hch => hcode hch rfl
  intro _
  apply iteInduction fun hch => hcode hch rfl
  intro _
  apply iteInduction fun hch => hcode hch rfl
  intro _
  apply iteInduction fun hch => hcode hch rfl
  intro _
  apply iteInduction fun hch => hcode hch rfl
  intro _
  apply iteInduction fun hch => hcode hch rfl
  intro _
  apply iteInduction fun hch => hcode hch rfl
  intro _
  apply iteInduction
  · intro hquote
    rw [Bool.or_eq_true, decide_eq_true_eq, decide_eq_true_eq] at hquote
    rcases hquote with rfl | rfl
    · exact hcode rfl rfl
    · exact hcode rfl rfl
  intro hquote
  apply iteInduction fun _ => hhex
  intro hcontrol
  simp only [isEscaped, Bool.or_eq_true] at h
  simp only [Bool.or_eq_true] at hquote hcontrol
  rcases h with ((h | h) | h) | h
  · exact absurd h hdigit
  · exact absurd (.inl h) hcontrol
  · exact absurd (.inl h) hquote
  · exact absurd (.inr h) hquote

/-- A character that is not escaped goes to the encoder. -/
theorem escapedChar_plain (h : isEscaped next ch = false) (toUtf8 : Option UInt16) :
  escapedChar true next toUtf8 ch
    = ((QUtf8.convertFromUnicode ch toUtf8).1, false, (QUtf8.convertFromUnicode ch toUtf8).2)
  := by
  rw [isEscaped, Bool.or_eq_false_iff, Bool.or_eq_false_iff, Bool.or_eq_false_iff,
    decide_eq_false_iff_not, decide_eq_false_iff_not, decide_eq_false_iff_not] at h
  obtain ⟨⟨⟨hdigit, hcontrol⟩, hquote⟩, hbackslash⟩ := h
  have hne : ∀ c : UInt16, c ≤ 0x1f → ch ≠ c := by
    rintro c hc rfl
    exact hcontrol hc
  unfold escapedChar
  rw [hdigit, if_neg Bool.false_ne_true, if_neg (hne 0x00 (by decide)),
    if_neg (hne 0x07 (by decide)), if_neg (hne 0x08 (by decide)), if_neg (hne 0x0c (by decide)),
    if_neg (hne 0x0a (by decide)), if_neg (hne 0x0d (by decide)), if_neg (hne 0x09 (by decide)),
    if_neg (hne 0x0b (by decide)), if_neg (by simp [hquote, hbackslash]),
    if_neg (by simp [hcontrol])]
  rfl

namespace Unescaping

theorem unescape_normal_nil (s : Unescaping) :
  s.normal.unescape [] = s.finish
  := by
  have hchop : s.normal.chopTrailingSpaces = s.normal := by
    rw [chopTrailingSpaces, normal]
    dsimp only
    rw [List.take_length, List.drop_length, List.rdropWhile_nil, List.append_nil]
  rw [unescape, hchop, ite_self]
  rfl

/-- A number at the end of the text, or before more of it. -/
theorem finish_or_go_on (s : Unescaping) (digits rest : QByteArray) :
  (if (digits ++ rest).length = digits.length then s.finish else s.normal.unescape rest)
    = s.normal.unescape rest
  := by
  split
  next hlength =>
    rw [List.length_append, Nat.add_eq_left, List.length_eq_zero_iff] at hlength
    rw [hlength, unescape_normal_nil]
  next => rfl

theorem takeWhile_digits {p : UInt8 → Bool} {digits rest : QByteArray}
    (h : ∀ d ∈ digits, p d = true) (hrest : ∀ b, rest.head? = some b → p b = false) :
  (digits ++ rest).takeWhile p = digits
  := by
  rw [List.takeWhile_append_of_pos h]
  cases rest with
  | nil => rw [List.takeWhile_nil, List.append_nil]
  | cons b rest => rw [List.takeWhile_cons_of_neg (by simp [hrest b rfl]), List.append_nil]

theorem isDigit_of_fromOct {b : UInt8} (h : isDigit b = false) :
  (fromOct b).isSome = false
  := by
  have hall : ∀ b : UInt8, isDigit b = false → (fromOct b).isSome = false := by
    apply QUtf8.forall_octet
    set_option maxRecDepth 10000 in
    decide
  exact hall b h

/-- An escape is read, where no digit follows a number. -/
theorem unescape_escape {ch : UInt16} {octets : QByteArray} {next : Bool}
    (h : Escape ch octets next) (s : Unescaping) {rest : QByteArray}
    (hrest : next = true → ∀ b, rest.head? = some b → isDigit b = false) :
  s.unescape (octets ++ rest) = (s.append [ch]).normal.unescape rest
  := by
  cases h with
  | @code code hcode =>
    change s.unescape (0x5c :: code :: rest) = _
    rw [unescape.eq_def]
    dsimp only
    rw [if_pos rfl, hcode]
  | @number digits hne hdigits hvalue =>
    have htake := takeWhile_digits hdigits (hrest rfl)
    have hstr : digits ++ rest ≠ [] := by simp [hne]
    change s.unescape (0x5c :: 0x78 :: (digits ++ rest)) = _
    rw [unescape.eq_def]
    dsimp only
    rw [if_pos rfl]
    change (if (0x78 : UInt8) = 0x78 then _ else _) = _
    rw [if_pos rfl, if_neg hstr]
    change (if (digits ++ rest).takeWhile isDigit = [] then _ else
      if (digits ++ rest).length = ((digits ++ rest).takeWhile isDigit).length
      then (s.append [escapeVal fromHex 4 ((digits ++ rest).takeWhile isDigit)]).finish
      else (s.append [escapeVal fromHex 4 ((digits ++ rest).takeWhile isDigit)]).normal.unescape
        ((digits ++ rest).drop ((digits ++ rest).takeWhile isDigit).length)) = _
    rw [htake, if_neg hne, hvalue, List.drop_left]
    exact finish_or_go_on _ digits rest
  | null hch =>
    have htake : rest.takeWhile (fun d => (fromOct d).isSome) = [] :=
      @takeWhile_digits _ [] rest (by simp) fun b hb =>
        isDigit_of_fromOct (hrest rfl b hb)
    subst hch
    change s.unescape (0x5c :: 0x30 :: rest) = _
    rw [unescape.eq_def]
    dsimp only
    rw [if_pos rfl]
    change (if (0x30 : UInt8) = 0x78 then _ else if (fromOct 0x30).isSome = true then
      if rest.length = (rest.takeWhile fun d => (fromOct d).isSome).length
      then (s.append [escapeVal fromOct 3 (0x30 :: rest.takeWhile fun d => (fromOct d).isSome)]).finish
      else (s.append [escapeVal fromOct 3
        (0x30 :: rest.takeWhile fun d => (fromOct d).isSome)]).normal.unescape
          (rest.drop (rest.takeWhile fun d => (fromOct d).isSome).length) else _) = _
    rw [if_neg (by decide), if_pos (by decide), htake]
    exact finish_or_go_on (s.append [0]) [] rest

end Unescaping

/-! ### Characters that are not escaped -/

/-- The octets of a character of one code unit. -/
theorem octets_single (h : QUtf8.isSurrogate ch.toNat = false) :
  ∃ octets, QUtf8.convertFromUnicode ch none = (octets, none) ∧ Octets octets [ch]
    ∧ (octets = [ch.toUInt8] ∧ ch < 0x80 ∨ 0x80 ≤ ch ∧ ∀ b ∈ octets, 0x80 ≤ b)
  := by
  obtain ⟨octets, hoctets⟩ := QUtf8.toUtf8_single h
  obtain ⟨b, tail, units, heq, hunits, -, hread⟩ := QUtf8.fromUtf8_toUtf8 (hoctets [])
  rw [List.append_nil] at hunits
  refine ⟨octets, ?_, ⟨b, tail, heq, ?_⟩, ?_⟩
  · rw [QUtf8.convertFromUnicode, QUtf8.encodeUnit, hoctets]
  · rw [hunits]
    exact hread
  · by_cases hascii : ch < 0x80
    · have hone := hoctets []
      rw [QUtf8.toUtf8_ascii hascii] at hone
      cases hone
      exact .inl ⟨rfl, hascii⟩
    · exact .inr ⟨UInt16.not_lt.mp hascii,
        fun b hb => QUtf8.toUtf8_high hascii (hoctets []) hb⟩

/-- The octets of a pair of surrogates, which the encoder writes for the second half. -/
theorem octets_pair {high low : UInt16} (hhigh : QUtf8.isHighSurrogate high = true)
    (hlow : QUtf8.isLowSurrogate low = true) :
  QUtf8.convertFromUnicode high none = ([], some high)
    ∧ ∃ octets, QUtf8.convertFromUnicode low (some high) = (octets, none)
      ∧ Octets octets [high, low] ∧ ∀ b ∈ octets, 0x80 ≤ b
  := by
  obtain ⟨first, bytes, -, hoctets⟩ := QUtf8.toUtf8_pair hhigh hlow
  obtain ⟨b, tail, units, heq, hunits, -, hread⟩ := QUtf8.fromUtf8_toUtf8 (hoctets [])
  rw [List.append_nil] at hunits
  have hnot : ¬ high < 0x80 := UInt16.not_lt.mpr (QUtf8.le_of_isHighSurrogate hhigh)
  have halone : QUtf8.toUtf8 high [] = none := by
    cases hnone : QUtf8.toUtf8 high [] with
    | none => rfl
    | some octets =>
      obtain ⟨octets, rest⟩ := octets
      rcases QUtf8.toUtf8_rest hnone with ⟨-, hsingle, -⟩ | ⟨low, hnil, -⟩
      · rw [QUtf8.isHighSurrogate_iff] at hhigh
        rw [← Bool.not_eq_true, QUtf8.isSurrogate_iff] at hsingle
        omega
      · cases hnil
  refine ⟨?_, first :: bytes, ?_, ⟨b, tail, heq, ?_⟩, ?_⟩
  · rw [QUtf8.convertFromUnicode, QUtf8.encodeUnit, halone]
  · rw [QUtf8.convertFromUnicode, hoctets]
  · rw [hunits]
    exact hread
  · exact fun c hc => QUtf8.toUtf8_high hnot (hoctets []) hc

/-! ### Texts -/

/-- The first character that is not escaped. -/
def firstPlain (escapeNextIfDigit : Bool) : QString → Option UInt16
  | [] => none
  | ch :: str =>
    if isEscaped escapeNextIfDigit ch then firstPlain (escapesDigit escapeNextIfDigit ch) str
    else some ch

/-- A text without the first character that is not escaped, where that is U+FEFF. -/
def dropMark (escapeNextIfDigit : Bool) : QString → QString
  | [] => []
  | ch :: str =>
    if isEscaped escapeNextIfDigit ch then
      ch :: dropMark (escapesDigit escapeNextIfDigit ch) str
    else QUtf8.eatBom [ch] ++ str

theorem eatBom_single (ch : UInt16) :
  QUtf8.eatBom [ch] = if ch = 0xfeff then [] else [ch]
  := by
  simp [QUtf8.eatBom]

theorem dropMark_eq (h : firstPlain next str ≠ some 0xfeff) :
  dropMark next str = str
  := by
  induction str generalizing next with
  | nil => rfl
  | cons ch str ih =>
    rw [firstPlain] at h
    rw [dropMark]
    split
    next hescaped =>
      rw [if_pos hescaped] at h
      rw [ih h]
    next hplain =>
      rw [if_neg hplain, ne_eq, Option.some.injEq] at h
      rw [eatBom_single, if_neg h]
      rfl

theorem length_dropMark (h : firstPlain next str = some 0xfeff) :
  (dropMark next str).length < str.length
  := by
  induction str generalizing next with
  | nil => cases h
  | cons ch str ih =>
    rw [firstPlain] at h
    rw [dropMark]
    split
    next hescaped =>
      rw [if_pos hescaped] at h
      exact Nat.succ_lt_succ (ih h)
    next hplain =>
      rw [if_neg hplain, Option.some.injEq] at h
      rw [eatBom_single, if_pos h]
      exact Nat.lt_succ_self _

/-- The text of an escaped character, and what follows it. -/
theorem escapedText_escape (h : isEscaped next ch = true) (str : QString) :
  escapedText true next none (ch :: str)
    = (escapedChar true next none ch).1 ++ escapedText true (escapesDigit next ch) none str
  := by
  have hstate := (escapedChar_escape h).2
  rw [escapesDigit]
  cases he : escapedChar true next none ch with
  | mk octets e =>
    obtain ⟨flag, toUtf8⟩ := e
    rw [he] at hstate
    rw [escapedText, he]
    change octets ++ escapedText true flag toUtf8 str = _
    rw [show toUtf8 = none from hstate]

theorem escapedText_single (h : isEscaped next ch = false)
    (hoctets : QUtf8.convertFromUnicode ch none = (octets, none)) (str : QString) :
  escapedText true next none (ch :: str) = octets ++ escapedText true false none str
  := by
  rw [escapedText, escapedChar_plain h, hoctets]

theorem isEscaped_surrogate (h : 0x80 ≤ ch) :
  isEscaped next ch = false
  := by
  rw [← Bool.not_eq_true]
  intro hescaped
  have hascii := isEscaped_ascii hescaped
  rw [UInt16.le_iff_toNat_le] at h
  change 0x80 ≤ _ at h
  omega

theorem escapedText_pair {high low : UInt16} (hhigh : QUtf8.isHighSurrogate high = true)
    (hlow : QUtf8.isLowSurrogate low = true)
    (hoctets : QUtf8.convertFromUnicode low (some high) = (octets, none)) (str : QString) :
  escapedText true next none (high :: low :: str) = octets ++ escapedText true false none str
  := by
  rw [escapedText, escapedChar_plain (isEscaped_surrogate (QUtf8.le_of_isHighSurrogate hhigh)),
    (octets_pair hhigh hlow).1]
  dsimp only
  rw [List.nil_append, escapedText,
    escapedChar_plain (isEscaped_surrogate (QUtf8.le_of_isLowSurrogate hlow)), hoctets]

/-- The text of a string: an escape, the octets of a character or of a pair of surrogates, and the
text of the rest. -/
inductive Spelled : Bool → QString → QByteArray → Prop
  | nil (next : Bool) : Spelled next [] []
  | escape {next : Bool} {ch : UInt16} {octets : QByteArray} {str : QString} {text : QByteArray}
    (h_ch : isEscaped next ch = true) (h_octets : Escape ch octets (escapesDigit next ch))
    (h : Spelled (escapesDigit next ch) str text) : Spelled next (ch :: str) (octets ++ text)
  | ascii {next : Bool} {ch : UInt16} {str : QString} {text : QByteArray}
    (h_ch : isEscaped next ch = false) (h_ascii : ch < 0x80) (h_octets : Octets [ch.toUInt8] [ch])
    (h : Spelled false str text) : Spelled next (ch :: str) (ch.toUInt8 :: text)
  | single {next : Bool} {ch : UInt16} {octets : QByteArray} {str : QString} {text : QByteArray}
    (h_ch : 0x80 ≤ ch) (h_octets : Octets octets [ch]) (h_high : ∀ b ∈ octets, 0x80 ≤ b)
    (h : Spelled false str text) : Spelled next (ch :: str) (octets ++ text)
  | pair {next : Bool} {high low : UInt16} {octets : QByteArray} {str : QString} {text : QByteArray}
    (h_first : QUtf8.isHighSurrogate high = true) (h_second : QUtf8.isLowSurrogate low = true)
    (h_octets : Octets octets [high, low]) (h_high : ∀ b ∈ octets, 0x80 ≤ b)
    (h : Spelled false str text) : Spelled next (high :: low :: str) (octets ++ text)

theorem spelled (next : Bool) (h : QUtf8.paired str = true) :
  Spelled next str (escapedText true next none str)
  := by
  induction hlength : str.length using Nat.strong_induction_on generalizing next str with
  | _ n ih =>
    cases str with
    | nil => exact .nil next
    | cons ch str =>
      rw [List.length_cons] at hlength
      cases hhigh : QUtf8.isHighSurrogate ch with
      | true =>
        obtain ⟨low, rest, rfl, hlow⟩ := QUtf8.low_of_paired h hhigh
        rw [QUtf8.paired_pair hhigh, Bool.and_eq_true] at h
        obtain ⟨-, octets, heq, hoctets, hbytes⟩ := octets_pair hhigh hlow
        rw [List.length_cons] at hlength
        rw [escapedText_pair hhigh hlow heq]
        exact .pair hhigh hlow hoctets hbytes (ih _ (by omega) false h.2 rfl)
      | false =>
        have hsingle := QUtf8.not_isSurrogate_of_paired h hhigh
        rw [QUtf8.paired_cons hsingle] at h
        cases hch : isEscaped next ch with
        | true =>
          rw [escapedText_escape hch]
          exact .escape hch (escapedChar_escape hch).1 (ih _ (by omega) _ h rfl)
        | false =>
          obtain ⟨octets, heq, hoctets, hbytes⟩ := octets_single hsingle
          rw [escapedText_single hch heq]
          rcases hbytes with ⟨rfl, hascii⟩ | ⟨hnot, hbytes⟩
          · exact .ascii hch hascii hoctets (ih _ (by omega) false h rfl)
          · exact .single hnot hoctets hbytes (ih _ (by omega) false h rfl)

end QSettings
