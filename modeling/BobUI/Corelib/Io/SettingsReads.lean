import BobUI.Corelib.Io.SettingsTexts

/-!
# Reading the text of a string

What the loop of `iniUnescapedStringList` does with the text that `iniEscapedString` writes for a
string, with and without quotes.
-/

namespace QSettings

theorem isDigit_high {b : UInt8} (h : 0x80 ≤ b) :
  isDigit b = false
  := by
  have hall : ∀ b : UInt8, 0x80 ≤ b → isDigit b = false := by
    apply QUtf8.forall_octet
    set_option maxRecDepth 10000 in
    decide
  exact hall b h

variable {ch : UInt16}

theorem toUInt16_ascii (h : ch < 0x80) :
  ch.toUInt8.toUInt16 = ch
  := by
  rw [UInt16.lt_iff_toNat_lt] at h
  change _ < 0x80 at h
  exact toUInt16_toUInt8 (by omega)

/-- A property of all octets that are not escaped holds for characters of US-ASCII. -/
theorem plain_ascii {p : UInt8 → Prop}
    (hall : ∀ b : UInt8, isEscaped false b.toUInt16 = false → p b) {next : Bool} (h : ch < 0x80)
    (hch : isEscaped next ch = false) :
  p ch.toUInt8
  := by
  apply hall
  rw [toUInt16_ascii h]
  simp only [isEscaped, Bool.or_eq_false_iff] at hch ⊢
  exact ⟨⟨⟨rfl, hch.1.1.2⟩, hch.1.2⟩, hch.2⟩

/-- A character that is not escaped after a number does not go on with its digits. -/
theorem isDigit_ascii (h : ch < 0x80) (hch : isEscaped true ch = false) :
  isDigit ch.toUInt8 = false
  := by
  have hall : ∀ b : UInt8, isEscaped true b.toUInt16 = false → isDigit b = false := by
    apply QUtf8.forall_octet
    set_option maxRecDepth 10000 in
    decide
  apply hall
  rwa [toUInt16_ascii h]

theorem endsRun_high {b : UInt8} (h : 0x80 ≤ b) :
  Unescaping.endsRun b = false
  := by
  have hall : ∀ b : UInt8, 0x80 ≤ b → Unescaping.endsRun b = false := by
    apply QUtf8.forall_octet
    set_option maxRecDepth 10000 in
    decide
  exact hall b h

theorem endsRun_ascii {next : Bool} (h : ch < 0x80) (hch : isEscaped next ch = false)
    (hcomma : ch ≠ 0x2c) :
  Unescaping.endsRun ch.toUInt8 = false
  := by
  have hall : ∀ b : UInt8, isEscaped false b.toUInt16 = false → b.toUInt16 ≠ 0x2c →
      Unescaping.endsRun b = false := by
    apply QUtf8.forall_octet
    set_option maxRecDepth 10000 in
    decide
  apply plain_ascii hall h hch
  rwa [toUInt16_ascii h]

namespace Spelled

/-- What follows a number does not go on with its digits. -/
theorem head {str : QString} {text : QByteArray} (h : Spelled true str text) {rest : QByteArray}
    (hrest : ∀ b, rest.head? = some b → isDigit b = false) :
  ∀ b, (text ++ rest).head? = some b → isDigit b = false
  := by
  have hoctets : ∀ {octets : QByteArray} {units : QString} (more : QByteArray),
      Octets octets units → (∀ b ∈ octets, 0x80 ≤ b) →
      ∀ b, (octets ++ more).head? = some b → isDigit b = false := by
    rintro octets units more ⟨b, tail, rfl, -⟩ hhigh c hc
    cases hc
    exact isDigit_high (hhigh b (List.mem_cons_self ..))
  have hbackslash : ∀ (code : UInt8) (more : QByteArray),
      ∀ b, (0x5c :: code :: more).head? = some b → isDigit b = false := by
    intro code more b hb
    cases hb
    rfl
  intro b hb
  cases h with
  | nil => exact hrest b hb
  | escape hch hescape h =>
    rw [List.append_assoc] at hb
    generalize escapesDigit _ _ = flag at hescape
    cases hescape with
    | code => exact hbackslash _ _ b hb
    | number => exact hbackslash _ _ b hb
    | null => exact hbackslash _ _ b hb
  | ascii hch hascii _ h =>
    cases hb
    exact isDigit_ascii hascii hch
  | single hch hsingle hhigh h =>
    rw [List.append_assoc] at hb
    exact hoctets _ hsingle hhigh b hb
  | pair _ _ hpair hhigh h =>
    rw [List.append_assoc] at hb
    exact hoctets _ hpair hhigh b hb

/-- The text of a string that ends with a space does so. -/
theorem getLast {next : Bool} {str : QString} {text : QByteArray} (h : Spelled next str text)
    (hlast : str.getLast? = some 0x20) :
  text.getLast? = some 0x20
  := by
  have htail : ∀ {ch : UInt16} {str : QString} {octets text : QByteArray},
      (str.getLast? = some 0x20 → text.getLast? = some 0x20) → (str = [] → ch ≠ 0x20) →
      (ch :: str).getLast? = some 0x20 → (octets ++ text).getLast? = some 0x20 := by
    intro ch str octets text ih hne hlast
    cases str with
    | nil => exact absurd (Option.some.inj hlast) (hne rfl)
    | cons c str =>
      rw [List.getLast?_append, ih hlast]
      rfl
  induction h with
  | nil => cases hlast
  | @escape next ch _ _ _ hch _ _ ih =>
    apply htail ih _ hlast
    rintro - rfl
    cases next with
    | true => cases hch
    | false => cases hch
  | @ascii _ ch str _ _ _ _ h ih =>
    cases str with
    | nil =>
      cases h
      cases hlast
      rfl
    | cons c str =>
      rw [List.getLast?_cons, ih hlast]
      rfl
  | single hch _ _ _ ih =>
    apply htail ih _ hlast
    rintro - rfl
    exact absurd hch (by decide)
  | @pair _ high low _ str _ _ hlow _ _ _ ih =>
    apply @htail low _ _ _ ih _ hlast
    rintro - rfl
    exact absurd hlow (by decide)

end Spelled

/-! ### Reading a text -/

namespace Unescaping

/-- The variables after the text of a string was read. -/
def readText (s : Unescaping) : Bool → QString → Unescaping
  | _, [] => s
  | next, ch :: str =>
    if isEscaped next ch then readText (s.append [ch]).normal (escapesDigit next ch) str
    else readText (s.readChar [ch]) false str

variable {next : Bool} {s : Unescaping} {ch : UInt16} {str : QString}

theorem readText_escaped (s : Unescaping) (h : isEscaped next ch = true) (str : QString) :
  s.readText next (ch :: str) = (s.append [ch]).normal.readText (escapesDigit next ch) str
  := if_pos h

theorem readText_plain (s : Unescaping) (h : isEscaped next ch = false) (str : QString) :
  s.readText next (ch :: str) = (s.readChar [ch]).readText false str
  := by
  rw [readText, h, if_neg Bool.false_ne_true]

theorem readText_pair (s : Unescaping) {high low : UInt16}
    (hhigh : QUtf8.isHighSurrogate high = true) (hlow : QUtf8.isLowSurrogate low = true)
    (str : QString) :
  s.readText next (high :: low :: str) = (s.readChar [high, low]).readText false str
  := by
  have hmark : ∀ {ch : UInt16}, QUtf8.isLowSurrogate ch = true → ch ≠ 0xfeff := by
    rintro ch h rfl
    cases h
  have hmark' : high ≠ 0xfeff := by
    rintro rfl
    cases hhigh
  rw [readText_plain s (isEscaped_surrogate (QUtf8.le_of_isHighSurrogate hhigh)),
    readText_plain _ (isEscaped_surrogate (QUtf8.le_of_isLowSurrogate hlow))]
  congr 1
  simp [readChar, QUtf8.eatBom, hmark hlow, hmark']

theorem ready_readChar (h : Ready s.fromUtf8) (units : QString) :
  Ready (s.readChar units).fromUtf8
  := h.done

/-- A comma is ordinary in quotes only. -/
theorem ordinary_ascii (hch : isEscaped next ch = false) (hascii : ch < 0x80) {isQuoted : Bool}
    (hcomma : isQuoted = true ∨ 0x2c ∉ ch :: str) :
  (∀ b ∈ [ch.toUInt8], endsRun b = false) ∨ [ch.toUInt8] = [0x2c] ∧ isQuoted = true
  := by
  by_cases heq : ch = 0x2c
  · subst heq
    rcases hcomma with hquoted | hnot
    · exact .inr ⟨rfl, hquoted⟩
    · exact absurd (List.mem_cons_self ..) hnot
  · left
    rw [List.forall_mem_singleton]
    exact endsRun_ascii hascii hch heq

/-- The text of a string is read, where no digit follows it. -/
theorem unescape_spelled {text : QByteArray} (h : Spelled next str text)
    (hready : Ready s.fromUtf8) (hcomma : s.inQuotedString = true ∨ 0x2c ∉ str)
    {rest : QByteArray} (hrest : ∀ b, rest.head? = some b → isDigit b = false) :
  s.unescape (text ++ rest) = (s.readText next str).unescape rest
  := by
  induction h generalizing s with
  | nil => rfl
  | @escape next ch _ str _ hch hescape htext ih =>
    rw [readText_escaped s hch, List.append_assoc, unescape_escape hescape]
    · apply ih (show Ready (s.append [ch]).normal.fromUtf8 from hready)
      exact hcomma.imp_right List.not_mem_of_not_mem_cons
    · intro hnext
      rw [hnext] at htext
      exact htext.head hrest
  | @ascii next ch str text hch hascii hoctets _ ih =>
    rw [readText_plain s hch]
    change s.unescape ([ch.toUInt8] ++ (text ++ rest)) = _
    rw [unescape_char hready hoctets]
    · apply ih (ready_readChar hready _)
      exact hcomma.imp_right List.not_mem_of_not_mem_cons
    · exact ordinary_ascii hch hascii hcomma
  | single hch hoctets hhigh _ ih =>
    rw [readText_plain s (isEscaped_surrogate hch), List.append_assoc,
      unescape_char hready hoctets (.inl fun b hb => endsRun_high (hhigh b hb))]
    apply ih (ready_readChar hready _)
    exact hcomma.imp_right List.not_mem_of_not_mem_cons
  | pair hfirst hsecond hoctets hhigh _ ih =>
    rw [readText_pair s hfirst hsecond, List.append_assoc,
      unescape_char hready hoctets (.inl fun b hb => endsRun_high (hhigh b hb))]
    apply ih (ready_readChar hready _)
    exact hcomma.imp_right fun h =>
      List.not_mem_of_not_mem_cons (List.not_mem_of_not_mem_cons h)

/-- What a text leaves as it is. -/
theorem readText_frame (s : Unescaping) (next : Bool) (str : QString) :
  (s.readText next str).isStringList = s.isStringList
    ∧ (s.readText next str).inQuotedString = s.inQuotedString
    ∧ (s.readText next str).currentValueIsQuoted = s.currentValueIsQuoted
    ∧ (s.readText next str).stringListResult = s.stringListResult
  := by
  induction str generalizing s next with
  | nil => exact ⟨rfl, rfl, rfl, rfl⟩
  | cons ch str ih =>
    rw [readText]
    split
    · exact ih _ _
    · exact ih _ _

/-- The result after a text, with and without something decoded before it. -/
theorem stringResult_readText (s : Unescaping) (next : Bool) (str : QString) :
  (s.readText next str).stringResult
    = s.stringResult ++ if s.fromUtf8.headerDone then str else dropMark next str
  := by
  induction str generalizing s next with
  | nil =>
    rw [dropMark, ite_self, List.append_nil]
    rfl
  | cons ch str ih =>
    cases hch : isEscaped next ch with
    | true =>
      rw [readText_escaped s hch, ih, dropMark, if_pos hch]
      change s.stringResult ++ [ch] ++ ite (s.fromUtf8.headerDone = true) _ _ = _
      rw [List.append_assoc]
      congr 1
      split
      · rfl
      · rfl
    | false =>
      rw [readText_plain s hch, ih, dropMark, hch, if_neg Bool.false_ne_true]
      change s.stringResult ++ ite (s.fromUtf8.headerDone = true) _ _ ++ str = _
      rw [List.append_assoc]
      congr 1
      split
      · rfl
      · rfl

/-- Nothing is cut off the end of the result. -/
def Kept (s : Unescaping) : Prop :=
  s.chopLimit = s.stringResult.length
    ∨ ∀ ch, s.stringResult.getLast? = some ch → ch ≠ 0x20 ∧ ch ≠ 0x09

theorem chopTrailingSpaces_kept (h : Kept s) :
  s.chopTrailingSpaces = s
  := by
  have hkept : ((s.stringResult.drop s.chopLimit).rdropWhile fun ch => ch = 0x20 || ch = 0x09)
      = s.stringResult.drop s.chopLimit := by
    rcases h with h | h
    · rw [h, List.drop_length, List.rdropWhile_nil]
    · rw [List.rdropWhile_eq_self_iff]
      intro hne hblank
      rw [Bool.or_eq_true, decide_eq_true_eq, decide_eq_true_eq] at hblank
      have hlast := List.getLast?_eq_some_getLast hne
      rw [List.getLast?_drop, if_neg (mt List.drop_eq_nil_iff.mpr hne)] at hlast
      obtain ⟨hspace, htab⟩ := h _ hlast
      exact hblank.elim hspace htab
  rw [chopTrailingSpaces, hkept, List.take_append_drop]

theorem kept_readChar (hch : isEscaped next ch = false) (hspace : ch ≠ 0x20)
    (hmark : s.fromUtf8.headerDone = false → s.chopLimit = s.stringResult.length) :
  Kept (s.readChar [ch])
  := by
  have htab : ch ≠ 0x09 := by
    rintro rfl
    cases next with
    | true => cases hch
    | false => cases hch
  have hlast : Kept (s.append [ch]) := by
    right
    intro c hc
    change (s.stringResult ++ [ch]).getLast? = some c at hc
    rw [List.getLast?_concat] at hc
    cases hc
    exact ⟨hspace, htab⟩
  cases hdone : s.fromUtf8.headerDone with
  | true =>
    rw [Kept, readChar, hdone]
    exact hlast
  | false =>
    rw [Kept, readChar, hdone, if_neg Bool.false_ne_true, eatBom_single]
    split
    next =>
      left
      dsimp only
      rw [List.append_nil]
      exact hmark hdone
    next => exact hlast

/-- A string that does not end with a space is kept. -/
theorem kept_readText (h : str = [] → Kept s)
    (hmark : s.fromUtf8.headerDone = false → s.chopLimit = s.stringResult.length)
    (hlast : str.getLast? ≠ some 0x20) :
  Kept (s.readText next str)
  := by
  induction str generalizing s next with
  | nil => exact h rfl
  | cons ch str ih =>
    have hstr : str.getLast? ≠ some 0x20 := by
      cases str with
      | nil => exact Option.some_ne_none _ ∘ Eq.symm
      | cons c str => rwa [List.getLast?_cons_cons] at hlast
    cases hch : isEscaped next ch with
    | true =>
      rw [readText_escaped s hch]
      exact ih (fun _ => .inl rfl) (fun _ => rfl) hstr
    | false =>
      rw [readText_plain s hch]
      apply ih _ _ hstr
      · rintro rfl
        apply kept_readChar hch _ hmark
        rintro rfl
        exact hlast rfl
      · intro hdone
        cases hdone

end Unescaping

/-! ### Strings -/

/-- A string that goes through the encoder. -/
def useCodec (str : QString) : Bool :=
  !(atByteArray.isPrefixOf str || atVariant.isPrefixOf str || atDateTime.isPrefixOf str)

theorem useCodec_of_head {str : QString} (h : str.head? ≠ some 0x40) :
  useCodec str = true
  := by
  have hnot : ∀ name, List.isPrefixOf (0x40 :: name) str = false := by
    intro name
    cases str with
    | nil => rfl
    | cons c str =>
      change ((0x40 : UInt16) == c && _) = false
      rw [List.head?_cons, ne_eq, Option.some.injEq, eq_comm] at h
      rw [beq_eq_false_iff_ne.mpr h, Bool.false_and]
  rw [useCodec, atByteArray, atVariant, atDateTime, hnot, hnot, hnot]
  rfl

/-- The text of a string, without and with quotes. -/
theorem iniEscapedString_eq (str : QString) :
  let text := escapedText (useCodec str) false none str
  iniEscapedString str = 0x22 :: text ++ [0x22]
    ∨ iniEscapedString str = text ∧ (∀ ch ∈ str, ch ≠ 0x3b ∧ ch ≠ 0x2c ∧ ch ≠ 0x3d)
      ∧ text.head? ≠ some 0x20 ∧ text.getLast? ≠ some 0x20
  := by
  have heq : iniEscapedString str = if (str.any fun ch => ch = 0x3b || ch = 0x2c || ch = 0x3d)
      || (escapedText (useCodec str) false none str).head? = some 0x20
      || (escapedText (useCodec str) false none str).getLast? = some 0x20
    then 0x22 :: escapedText (useCodec str) false none str ++ [0x22]
    else escapedText (useCodec str) false none str := rfl
  dsimp only
  rw [heq]
  split
  next => exact .inl rfl
  next h =>
    right
    rw [Bool.not_eq_true, Bool.or_eq_false_iff, Bool.or_eq_false_iff, List.any_eq_false,
      decide_eq_false_iff_not, decide_eq_false_iff_not] at h
    refine ⟨rfl, ?_, h.1.2, h.2⟩
    intro ch hch
    have hplain := h.1.1 ch hch
    rw [Bool.not_eq_true, Bool.or_eq_false_iff, Bool.or_eq_false_iff, decide_eq_false_iff_not,
      decide_eq_false_iff_not, decide_eq_false_iff_not] at hplain
    exact ⟨hplain.1.1, hplain.1.2, hplain.2⟩

/-- An octet of a text that is neither a control character nor a tab. -/
theorem Spelled.printable {next : Bool} {str : QString} {text : QByteArray}
    (h : Spelled next str text) :
  ∀ b ∈ text, 0x20 ≤ b
  := by
  have hhigh : ∀ {b : UInt8}, 0x80 ≤ b → 0x20 ≤ b := UInt8.le_trans (by decide)
  have hdigit : ∀ b : UInt8, isDigit b = true → 0x20 ≤ b := by
    apply QUtf8.forall_octet
    set_option maxRecDepth 10000 in
    decide
  have hcode : ∀ b : UInt8, (escapeCode b).isSome = true → 0x20 ≤ b := by
    apply QUtf8.forall_octet
    set_option maxRecDepth 10000 in
    decide
  have hascii : ∀ b : UInt8, isEscaped false b.toUInt16 = false → 0x20 ≤ b := by
    apply QUtf8.forall_octet
    set_option maxRecDepth 10000 in
    decide
  have hescape : ∀ {ch : UInt16} {octets : QByteArray} {next : Bool}, Escape ch octets next →
      ∀ b ∈ octets, 0x20 ≤ b := by
    intro ch octets next h
    cases h with
    | code hc =>
      rw [List.forall_mem_cons, List.forall_mem_singleton]
      exact ⟨by decide, hcode _ (by rw [hc]; rfl)⟩
    | number _ hdigits =>
      rw [List.forall_mem_cons, List.forall_mem_cons]
      exact ⟨by decide, by decide, fun b hb => hdigit b (hdigits b hb)⟩
    | null =>
      rw [List.forall_mem_cons, List.forall_mem_singleton]
      exact ⟨by decide, by decide⟩
  induction h with
  | nil => simp
  | escape _ hoctets _ ih =>
    rw [List.forall_mem_append]
    exact ⟨hescape hoctets, ih⟩
  | @ascii next ch _ _ hch hlt _ _ ih =>
    rw [List.forall_mem_cons]
    exact ⟨plain_ascii hascii hlt hch, ih⟩
  | single _ _ hoctets _ ih =>
    rw [List.forall_mem_append]
    exact ⟨fun b hb => hhigh (hoctets b hb), ih⟩
  | pair _ _ _ hoctets _ ih =>
    rw [List.forall_mem_append]
    exact ⟨fun b hb => hhigh (hoctets b hb), ih⟩

namespace Unescaping

/-- The variables in a string in quotes. -/
def quoted (s : Unescaping) : Unescaping :=
  { s with currentValueIsQuoted := true, inQuotedString := true }

theorem unescape_openingQuote {s : Unescaping} (h : s.inQuotedString = false) (str : QByteArray) :
  s.unescape (0x22 :: str) = s.quoted.unescape str
  := by
  rw [unescape.eq_def]
  dsimp only
  rw [if_neg (by decide), if_pos rfl, h, Bool.not_false, if_pos rfl]
  rfl

theorem unescape_closingQuote {s : Unescaping} (h : s.inQuotedString = true) (str : QByteArray) :
  s.unescape (0x22 :: str)
    = { s with currentValueIsQuoted := true, inQuotedString := false }.normal.unescape
      (str.drop (str.takeWhile isBlank).length)
  := by
  rw [unescape.eq_def]
  dsimp only
  rw [if_neg (by decide), if_pos rfl, h, Bool.not_true, if_neg Bool.false_ne_true]

end Unescaping

end QSettings
