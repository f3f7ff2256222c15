import BobUI.Corelib.Text.Utf8Chunks
import BobUI.Corelib.Serialization.JsonWriter
import BobUI.Corelib.Serialization.JsonParser

/-!
# JSON strings

The parser reads the escaped text of a string back as that string.  It keeps the text itself
where that has no escape sequence, and is UTF-16 again otherwise; whether the result is equal to
the string is a question of its encoding.
-/

namespace JsonParser

open JsonWriter (escapedString escapedControl escapedUnit hexdig)

/-! ### Escape sequences -/

theorem fromHex_hexdig (n : ℕ) (h : n < 16) :
  fromHex (hexdig n) = some n
  := by
  have hall : ∀ m : Fin 16, fromHex (hexdig m.val) = some m.val := by decide
  exact hall ⟨n, h⟩

theorem scanHexDigits_hexdig {n₃ n₂ n₁ n₀ : ℕ} (h₃ : n₃ < 16) (h₂ : n₂ < 16) (h₁ : n₁ < 16)
    (h₀ : n₀ < 16) (rest : QByteArray) :
  scanHexDigits 4 0 (hexdig n₃ :: hexdig n₂ :: hexdig n₁ :: hexdig n₀ :: rest)
    = some (((n₃ <<< 4 ||| n₂) <<< 4 ||| n₁) <<< 4 ||| n₀, rest)
  := by
  simp only [scanHexDigits, fromHex_hexdig, h₃, h₂, h₁, h₀, Option.bind_eq_bind,
    Option.bind_some, Nat.zero_shiftLeft, Nat.zero_or]

/-- The hexadecimal digits of a code unit have its bits. -/
theorem hexDigits_bits (n : ℕ) (h : n < 2 ^ 16) :
  (((n >>> 12 &&& 0xf) <<< 4 ||| (n >>> 8 &&& 0xf)) <<< 4 ||| (n >>> 4 &&& 0xf)) <<< 4
    ||| (n &&& 0xf) = n
  := by
  have hmod : ∀ x : ℕ, x &&& 0xf = x % 2 ^ 4 := fun x => Nat.and_two_pow_sub_one_eq_mod x 4
  have hlt : ∀ x : ℕ, x % 2 ^ 4 < 2 ^ 4 := fun x => Nat.mod_lt _ (by decide)
  have hor : ∀ a x : ℕ, a <<< 4 ||| x % 2 ^ 4 = a * 2 ^ 4 + x % 2 ^ 4 := by
    intro a x
    rw [← Nat.shiftLeft_add_eq_or_of_lt (hlt x), Nat.shiftLeft_eq]
  simp only [hmod, hor, Nat.shiftRight_eq_div_pow]
  omega

theorem fromUcs4_toNat (u : UInt16) :
  fromUcs4 u.toNat = [u]
  := QUtf8.appendUcs4_unit

theorem scanEscapeSequence_hexDigits (u : UInt16) (rest : QByteArray) :
  scanEscapeSequence (0x75 :: hexdig (u.toNat >>> 12 &&& 0xf) :: hexdig (u.toNat >>> 8 &&& 0xf)
    :: hexdig (u.toNat >>> 4 &&& 0xf) :: hexdig (u.toNat &&& 0xf) :: rest)
    = some (u.toNat, rest)
  := by
  have hlt : ∀ x : ℕ, x &&& 0xf < 16 := fun x =>
    Nat.lt_of_le_of_lt Nat.and_le_right (by decide)
  have hdigits := scanHexDigits_hexdig (hlt (u.toNat >>> 12)) (hlt (u.toNat >>> 8))
    (hlt (u.toNat >>> 4)) (hlt u.toNat) rest
  rw [hexDigits_bits _ u.toNat_lt] at hdigits
  exact hdigits

/-- A character that the writer escapes though it is US-ASCII. -/
def isControl (u : UInt16) : Bool :=
  u < 0x20 || u = 0x22 || u = 0x5c

variable {u : UInt16} {src src' : QString} {bytes rest : QByteArray}

/-- The parser reads the escape sequence of such a character. -/
theorem scanEscapeSequence_control (h : isControl u = true) :
  ∃ tail, escapedControl u = backslash :: tail
    ∧ ∀ rest, scanEscapeSequence (tail ++ rest) = some (u.toNat, rest)
  := by
  unfold escapedControl
  split
  next hu => subst hu; exact ⟨_, rfl, fun _ => rfl⟩
  split
  next hu => subst hu; exact ⟨_, rfl, fun _ => rfl⟩
  split
  next hu => subst hu; exact ⟨_, rfl, fun _ => rfl⟩
  split
  next hu => subst hu; exact ⟨_, rfl, fun _ => rfl⟩
  split
  next hu => subst hu; exact ⟨_, rfl, fun _ => rfl⟩
  split
  next hu => subst hu; exact ⟨_, rfl, fun _ => rfl⟩
  split
  next hu => subst hu; exact ⟨_, rfl, fun _ => rfl⟩
  next hquote hbackslash _ _ _ _ _ =>
    have hlt : u < 0x20 := by
      simpa [isControl, hquote, hbackslash] using h
    have hall : ∀ n : Fin 0x20, hexdig (n.val >>> 4) = hexdig (n.val >>> 4 &&& 0xf)
        ∧ hexdig (n.val >>> 8 &&& 0xf) = 0x30 ∧ hexdig (n.val >>> 12 &&& 0xf) = 0x30 := by
      decide
    obtain ⟨h4, h8, h12⟩ := hall ⟨u.toNat, UInt16.lt_iff_toNat_lt.mp hlt⟩
    refine ⟨_, rfl, fun rest => ?_⟩
    have hdigits := scanEscapeSequence_hexDigits u rest
    rwa [h12, h8, ← h4] at hdigits

/-! ### The escaped text -/

theorem escapedString_control (hu : u < 0x80) (h : isControl u = true) (src : QString) :
  escapedString (u :: src) = escapedControl u ++ escapedString src
  := by
  rw [escapedString, if_pos hu]
  exact if_pos h

theorem escapedString_ascii (hu : u < 0x80) (h : isControl u = false) (src : QString) :
  escapedString (u :: src) = u.toUInt8 :: escapedString src
  := by
  rw [escapedString, if_pos hu]
  exact if_neg (Bool.not_eq_true _ |>.mpr h)

theorem escapedString_some (hu : ¬ u < 0x80) (h : QUtf8.toUtf8 u src = some (bytes, src')) :
  escapedString (u :: src) = bytes ++ escapedString src'
  := by
  rw [escapedString, if_neg hu]
  split
  next hsome => rw [h] at hsome; cases hsome; rfl
  next hnone => rw [h] at hnone; cases hnone

theorem escapedString_none (hu : ¬ u < 0x80) (h : QUtf8.toUtf8 u src = none) :
  escapedString (u :: src) = escapedUnit u ++ escapedString src
  := by
  rw [escapedString, if_neg hu]
  split
  next hsome => rw [h] at hsome; cases hsome
  next => rfl

/-- The cases of the writer's loop: an escape sequence that the parser reads, or the octets of a
character. -/
theorem escapedString_induction {p : QString → Prop} (nil : p [])
    (escape : ∀ u src tail, escapedString (u :: src) = backslash :: (tail ++ escapedString src)
      → (∀ rest, scanEscapeSequence (tail ++ rest) = some (u.toNat, rest)) → p src → p (u :: src))
    (char : ∀ u src bytes src', (u < 0x80 → isControl u = false)
      → QUtf8.toUtf8 u src = some (bytes, src')
      → escapedString (u :: src) = bytes ++ escapedString src' → p src' → p (u :: src))
    (s : QString) :
  p s
  := by
  induction hn : s.length using Nat.strongRecOn generalizing s with
  | ind n ih =>
    cases s with
    | nil => exact nil
    | cons u src =>
      have hsrc : p src := ih src.length (by rw [← hn]; exact Nat.lt_succ_self _) src rfl
      by_cases hu : u < 0x80
      · cases hcontrol : isControl u with
        | true =>
          obtain ⟨tail, htail, hscan⟩ := scanEscapeSequence_control hcontrol
          apply escape u src tail _ hscan hsrc
          rw [escapedString_control hu hcontrol, htail, List.cons_append]
        | false =>
          apply char u src [u.toUInt8] src (fun _ => hcontrol) _ _ hsrc
          · exact QUtf8.toUtf8_ascii hu src
          · exact escapedString_ascii hu hcontrol src
      · cases hutf8 : QUtf8.toUtf8 u src with
        | none =>
          apply escape u src (escapedUnit u).tail _ _ hsrc
          · exact escapedString_none hu hutf8
          · exact scanEscapeSequence_hexDigits u
        | some result =>
          obtain ⟨bytes, src'⟩ := result
          have hlength := QUtf8.toUtf8_length hutf8
          apply char u src bytes src' (fun h => absurd h hu) hutf8
          · exact escapedString_some hu hutf8
          · apply ih src'.length _ src' rfl
            rw [← hn]
            exact Nat.lt_succ_of_le hlength

/-! ### Reading the text -/

/-- The parser reads the octets of a character that is not escaped. -/
theorem scanUtf8Char_toUtf8 (hu : u < 0x80 → isControl u = false)
    (h : QUtf8.toUtf8 u src = some (bytes, src')) :
  ∃ b tail ch, bytes = b :: tail ∧ b ≠ quote ∧ backslash ∉ bytes
    ∧ (∀ rest, scanUtf8Char b (tail ++ rest) = some (ch, tail.length + 1))
    ∧ fromUcs4 ch ++ src' = u :: src ∧ decide (ch ≤ 0x7f) = bytes.all (· < 0x80)
  := by
  obtain ⟨b, tail, units, hbytes, hunits, hucs4, hrest⟩ := QUtf8.fromUtf8_toUtf8 h
  have hscan : ∀ rest, scanUtf8Char b (tail ++ rest)
      = some (QUtf8.toUcs4 units, tail.length + 1) := by
    intro rest
    rw [scanUtf8Char, hrest, hbytes]
    rfl
  have hfromUcs4 : fromUcs4 (QUtf8.toUcs4 units) ++ src' = u :: src := by
    rw [fromUcs4, hucs4, hunits]
  by_cases hascii : u < 0x80
  · have hoctet := QUtf8.toUtf8_ascii hascii src
    rw [h, Option.some.injEq, Prod.mk.injEq] at hoctet
    obtain ⟨hoctet, rfl⟩ := hoctet
    rw [hoctet] at hbytes
    obtain ⟨rfl, rfl⟩ := List.cons.inj hbytes
    have hunits : [u] = units := List.append_cancel_right (by exact hunits)
    subst hunits
    have hlt : u.toNat < 0x80 := UInt16.lt_iff_toNat_lt.mp hascii
    have htoNat : u.toUInt8.toNat = u.toNat := by
      rw [UInt16.toNat_toUInt8]
      exact Nat.mod_eq_of_lt (by omega)
    have hcontrol := hu hascii
    simp only [isControl, Bool.or_eq_false_iff, decide_eq_false_iff_not] at hcontrol
    refine ⟨_, _, _, hoctet, ?_, ?_, hscan, hfromUcs4, ?_⟩
    · intro hb
      apply hcontrol.1.2
      rw [← UInt16.toNat_inj, ← htoNat, hb]
      rfl
    · intro hb
      rw [hoctet, List.mem_singleton] at hb
      apply hcontrol.2
      rw [← UInt16.toNat_inj, ← htoNat, ← hb]
      rfl
    · rw [hoctet, List.all_cons, List.all_nil, Bool.and_true, decide_eq_decide,
        UInt8.lt_iff_toNat_lt, htoNat]
      exact iff_of_true (Nat.le_of_lt_succ hlt) hlt
  · have hhigh : ∀ c ∈ bytes, 0x80 ≤ c := fun _ => QUtf8.toUtf8_high hascii h
    have hfirst : 0x80 ≤ b := by
      apply hhigh
      rw [hbytes]
      exact List.mem_cons_self
    refine ⟨b, tail, QUtf8.toUcs4 units, hbytes, ?_, ?_, hscan, hfromUcs4, ?_⟩
    · intro hb
      rw [hb] at hfirst
      exact absurd hfirst (by decide)
    · intro hb
      exact absurd (hhigh _ hb) (by decide)
    · rw [hbytes, List.all_cons, decide_eq_false (UInt8.not_lt.mpr hfirst), Bool.false_and,
        decide_eq_false_iff_not]
      intro hch
      apply hascii
      rw [fromUcs4, QUtf8.appendUcs4, if_pos (by omega)] at hfromUcs4
      rw [← (List.cons.inj hfromUcs4).1, UInt16.lt_iff_toNat_lt, UInt16.toNat_ofNat']
      exact Nat.lt_of_le_of_lt (Nat.mod_le _ _) (Nat.lt_succ_of_le hch)

theorem scanEscaped_escape {src json : QByteArray} {ch : ℕ}
    (h : scanEscapeSequence src = some (ch, json)) :
  scanEscaped (backslash :: src)
    = (scanEscaped json).map fun (ucs4, rest) => (fromUcs4 ch ++ ucs4, rest)
  := by
  rw [scanEscaped, if_neg (by decide), if_pos rfl]
  split
  next hnone => rw [h] at hnone; cases hnone
  next hsome =>
    rw [h] at hsome
    cases hsome
    cases scanEscaped json <;> rfl

theorem scanEscaped_char {b : UInt8} {tail : QByteArray} {ch : ℕ} (hquote : b ≠ quote)
    (hbackslash : backslash ∉ b :: tail)
    (h : scanUtf8Char b (tail ++ rest) = some (ch, tail.length + 1)) :
  scanEscaped (b :: (tail ++ rest))
    = (scanEscaped rest).map fun (ucs4, rest) => (fromUcs4 ch ++ ucs4, rest)
  := by
  rw [scanEscaped, if_neg hquote, if_neg (List.ne_of_not_mem_cons hbackslash).symm, h]
  dsimp only
  rw [Nat.add_sub_cancel, List.drop_left]
  cases scanEscaped rest <;> rfl

/-- The second loop of `parseString` reads the escaped text back. -/
theorem scanEscaped_escapedString (s : QString) (rest : QByteArray) :
  scanEscaped (escapedString s ++ quote :: rest) = .ok (s, rest)
  := by
  induction s using escapedString_induction with
  | nil => rw [escapedString, List.nil_append, scanEscaped, if_pos rfl]
  | escape u src tail htail hscan ih =>
    rw [htail, List.cons_append, List.append_assoc, scanEscaped_escape (hscan _), ih,
      fromUcs4_toNat]
    rfl
  | char u src bytes src' hu hutf8 htext ih =>
    obtain ⟨b, tail, ch, hbytes, hquote, hbackslash, hscan, hch, -⟩ :=
      scanUtf8Char_toUtf8 hu hutf8
    subst hbytes
    rw [htext, List.append_assoc, List.cons_append,
      scanEscaped_char hquote hbackslash (hscan _), ih, ← hch]
    rfl

theorem scanPlain_char {text : QByteArray} {isAscii : Bool} {b : UInt8} {tail : QByteArray} {ch : ℕ}
    (hquote : b ≠ quote) (hbackslash : backslash ∉ b :: tail)
    (h : scanUtf8Char b (tail ++ rest) = some (ch, tail.length + 1)) :
  scanPlain text isAscii (b :: (tail ++ rest))
    = scanPlain (text ++ b :: tail) (isAscii && ch ≤ 0x7f) rest
  := by
  rw [scanPlain, if_neg hquote, if_neg (List.ne_of_not_mem_cons hbackslash).symm, h]
  dsimp only
  rw [Nat.add_sub_cancel, List.drop_left, List.take_left]

/-- The first loop of `parseString` reads a text that has no escape sequence, and stops at the
first escape sequence otherwise. -/
theorem scanPlain_escapedString (s : QString) (text : QByteArray) (isAscii : Bool)
    (rest : QByteArray) :
  scanPlain text isAscii (escapedString s ++ quote :: rest)
    = if backslash ∈ escapedString s then .escape
      else .closed (text ++ escapedString s) (isAscii && (escapedString s).all (· < 0x80)) rest
  := by
  induction s using escapedString_induction generalizing text isAscii with
  | nil =>
    rw [escapedString, List.nil_append, scanPlain, if_pos rfl, if_neg List.not_mem_nil,
      List.append_nil, List.all_nil, Bool.and_true]
  | escape u src tail htail hscan ih =>
    rw [htail, if_pos List.mem_cons_self, List.cons_append, scanPlain, if_neg (by decide),
      if_pos rfl]
  | char u src bytes src' hu hutf8 htext ih =>
    obtain ⟨b, tail, ch, hbytes, hquote, hbackslash, hscan, -, hascii⟩ :=
      scanUtf8Char_toUtf8 hu hutf8
    simp only [htext, List.mem_append, or_iff_right hbackslash, List.all_append,
      ← Bool.and_assoc, ← hascii, ← List.append_assoc]
    subst hbytes
    rw [List.append_assoc, List.cons_append, scanPlain_char hquote hbackslash (hscan _), ih]

/-- The string that `parseString` makes of the escaped text of a string. -/
def parsedString (s : QString) : JsonString :=
  if backslash ∈ escapedString s then .utf16 s
  else if (escapedString s).all (· < 0x80) then .ascii (escapedString s)
  else .utf8 (escapedString s)

theorem parseString_escapedString (s : QString) (rest : QByteArray) :
  parseString (escapedString s ++ quote :: rest) = .ok (parsedString s, rest)
  := by
  rw [parseString, scanPlain_escapedString, parsedString]
  by_cases h : backslash ∈ escapedString s
  · rw [if_pos h, if_pos h]
    dsimp only
    rw [scanEscaped_escapedString]
    rfl
  · rw [if_neg h, if_neg h]
    rfl

/-! ### The string that is read -/

theorem equalInUtf8_char (h : QUtf8.toUtf8 u src = some (bytes, src')) (hbytes : bytes ≠ []) :
  JsonString.equalInUtf8 (bytes ++ rest) (u :: src) = JsonString.equalInUtf8 rest src'
  := by
  rw [JsonString.equalInUtf8, if_neg]
  · split
    next hnone => rw [h] at hnone; cases hnone
    next hsome =>
      rw [h] at hsome
      cases hsome
      rw [if_pos (List.isPrefixOf_iff_prefix.mpr (List.prefix_append _ _)), List.drop_left]
  · rw [List.isEmpty_iff, List.append_eq_nil_iff]
    exact fun hnil => hbytes hnil.1

/-- The octets of a text without escape sequences are those of the string. -/
theorem equalInUtf8_escapedString (s : QString) (h : backslash ∉ escapedString s) :
  JsonString.equalInUtf8 (escapedString s) s = true
  := by
  induction s using escapedString_induction with
  | nil => rw [escapedString, JsonString.equalInUtf8, List.isEmpty_nil]
  | escape u src tail htail hscan ih =>
    rw [htail] at h
    exact absurd List.mem_cons_self h
  | char u src bytes src' hu hutf8 htext ih =>
    obtain ⟨b, tail, _, hbytes, -⟩ := scanUtf8Char_toUtf8 hu hutf8
    rw [htext] at h ⊢
    rw [equalInUtf8_char hutf8 (by rw [hbytes]; exact List.cons_ne_nil _ _)]
    exact ih (fun hmem => h (List.mem_append_right _ hmem))

theorem decode_escapedString (s : QString) (h : backslash ∉ escapedString s) :
  QUtf8.decode 0xfffd (escapedString s) = ⟨s, [], 0⟩
  := by
  induction s using escapedString_induction with
  | nil => rw [escapedString, QUtf8.decode]
  | escape u src tail htail hscan ih =>
    rw [htail] at h
    exact absurd List.mem_cons_self h
  | char u src bytes src' hu hutf8 htext ih =>
    obtain ⟨b, tail, units, hbytes, hunits, -, hrest⟩ := QUtf8.fromUtf8_toUtf8 hutf8
    rw [htext] at h ⊢
    subst hbytes
    rw [List.cons_append, QUtf8.decode_of_char (hrest _), List.length_cons,
      Nat.add_sub_cancel, List.drop_left,
      ih (fun hmem => h (List.mem_append_right _ hmem)), hunits]
    rfl

theorem toUInt16_toUInt8 (h : u < 0x80) :
  u.toUInt8.toUInt16 = u
  := by
  have hlt := UInt16.lt_iff_toNat_lt.mp h
  rw [← UInt16.toNat_inj, UInt8.toNat_toUInt16, UInt16.toNat_toUInt8]
  exact Nat.mod_eq_of_lt (Nat.lt_trans hlt (by decide))

theorem toString_ofString (s : QString) :
  (JsonString.ofString s).toString = s
  := by
  unfold JsonString.ofString
  split
  next h =>
    rw [JsonString.toString, List.map_map]
    conv_rhs => rw [← List.map_id s]
    apply List.map_congr_left
    intro u hu
    exact toUInt16_toUInt8 (of_decide_eq_true (List.all_eq_true.mp h u hu))
  next => rfl

theorem map_escapedString (s : QString) (h : backslash ∉ escapedString s)
    (hascii : (escapedString s).all (· < 0x80) = true) :
  (escapedString s).map UInt8.toUInt16 = s
  := by
  induction s using escapedString_induction with
  | nil => rw [escapedString, List.map_nil]
  | escape u src tail htail hscan ih =>
    rw [htail] at h
    exact absurd List.mem_cons_self h
  | char u src bytes src' hu hutf8 htext ih =>
    rw [htext, List.all_append, Bool.and_eq_true] at hascii
    rw [htext] at h ⊢
    by_cases hlt : u < 0x80
    · rw [QUtf8.toUtf8_ascii hlt] at hutf8
      cases hutf8
      rw [List.map_append, ih (fun hmem => h (List.mem_append_right _ hmem)) hascii.2,
        List.map_singleton, toUInt16_toUInt8 hlt]
      rfl
    · obtain ⟨b, tail, _, hbytes, -⟩ := scanUtf8Char_toUtf8 hu hutf8
      have hb : b ∈ bytes := by
        rw [hbytes]
        exact List.mem_cons_self
      have hhigh := QUtf8.toUtf8_high hlt hutf8 hb
      have hlow := of_decide_eq_true (List.all_eq_true.mp hascii.1 b hb)
      exact absurd hlow (UInt8.not_lt.mpr hhigh)

theorem escapedString_mark (src : QString) :
  escapedString (0xfeff :: src) = QUtf8.utf8bom ++ escapedString src
  := escapedString_some (by decide) rfl

/-- A string that starts with a byte order mark, and whose text has no escape sequences. -/
def StartsWithMark (s : QString) : Prop :=
  s.head? = some 0xfeff ∧ backslash ∉ escapedString s

/-- A byte order mark in front of octets is a character. -/
theorem decode_mark (bytes : QByteArray) :
  (QUtf8.decode 0xfffd (QUtf8.utf8bom ++ bytes)).units
    = 0xfeff :: (QUtf8.decode 0xfffd bytes).units
  := by
  have hmark : QUtf8.fromUtf8 0xef (0xbb :: 0xbf :: bytes) = .char [0xfeff] 3 := rfl
  rw [QUtf8.utf8bom, List.cons_append]
  exact congrArg QUtf8.Decoded.units (QUtf8.decode_of_char hmark)

theorem prefix_mark_iff {s : QString} (h : backslash ∉ escapedString s) :
  QUtf8.utf8bom.isPrefixOf (escapedString s) = true ↔ s.head? = some 0xfeff
  := by
  constructor
  · intro hprefix
    obtain ⟨bytes, hbytes⟩ := List.isPrefixOf_iff_prefix.mp hprefix
    have hunits := decode_mark bytes
    rw [hbytes, decode_escapedString s h] at hunits
    rw [show s = _ from hunits]
    rfl
  · intro hhead
    obtain ⟨src, rfl⟩ := List.head?_eq_some_iff.mp hhead
    rw [escapedString_mark]
    exact List.isPrefixOf_iff_prefix.mpr (List.prefix_append _ _)

/-- The string that is read is the one that was written, unless that starts with a byte order
mark. -/
theorem toString_parsedString (s : QString) :
  (parsedString s).toString = s ↔ ¬ StartsWithMark s
  := by
  unfold parsedString
  split
  next h => exact iff_of_true rfl (fun hmark => hmark.2 h)
  next h =>
    split
    next hascii =>
      apply iff_of_true (map_escapedString s h hascii)
      intro hmark
      obtain ⟨src, rfl⟩ := List.head?_eq_some_iff.mp hmark.1
      rw [escapedString_mark, List.all_append] at hascii
      exact absurd (Bool.and_eq_true_iff.mp hascii).1 (by decide)
    next =>
      have hdecode := decode_escapedString s h
      rw [JsonString.toString, JsonString.fromUtf8]
      by_cases hprefix : QUtf8.utf8bom.isPrefixOf (escapedString s) = true
      · have hmark := (prefix_mark_iff h).mp hprefix
        apply iff_of_false _ (fun hnot => hnot ⟨hmark, h⟩)
        obtain ⟨src, rfl⟩ := List.head?_eq_some_iff.mp hmark
        rw [escapedString_mark] at h hprefix ⊢
        have hsrc := decode_escapedString src (fun hmem => h (List.mem_append_right _ hmem))
        rw [if_pos hprefix, show 3 = QUtf8.utf8bom.length from rfl, List.drop_left, hsrc,
          List.length_nil, List.replicate_zero, List.append_nil]
        exact List.ne_cons_self
      · rw [if_neg hprefix, hdecode, List.length_nil, List.replicate_zero, List.append_nil]
        exact iff_of_true rfl (fun hmark => hprefix ((prefix_mark_iff h).mpr hmark.1))

/-! ### Equality in containers -/

theorem equalInUtf8_mixed (a : QString) (b : QByteArray) :
  (if a.isEmpty || b.isEmpty then a.isEmpty && b.isEmpty else JsonString.equalInUtf8 b a)
    = JsonString.equalInUtf8 b a
  := by
  cases a with
  | nil => rw [JsonString.equalInUtf8]; rfl
  | cons u a =>
    cases b with
    | nil => rw [JsonString.equalInUtf8]; rfl
    | cons c b => rfl

theorem equalInUtf8_ascii (s : QString) (h : s.all (· < 0x80) = true) :
  JsonString.equalInUtf8 (s.map UInt16.toUInt8) s = true
  := by
  induction s with
  | nil => rw [List.map_nil, JsonString.equalInUtf8, List.isEmpty_nil]
  | cons u src ih =>
    rw [List.all_cons, Bool.and_eq_true] at h
    have hutf8 := QUtf8.toUtf8_ascii (of_decide_eq_true h.1) src
    exact (equalInUtf8_char hutf8 (List.cons_ne_nil _ _)).trans (ih h.2)

theorem escapedString_of_ascii (s : QString) (h : s.all (· < 0x80) = true)
    (htext : backslash ∉ escapedString s) :
  escapedString s = s.map UInt16.toUInt8
  := by
  induction s with
  | nil => rw [escapedString, List.map_nil]
  | cons u src ih =>
    rw [List.all_cons, Bool.and_eq_true, decide_eq_true_eq] at h
    cases hcontrol : isControl u with
    | true =>
      obtain ⟨tail, htail, -⟩ := scanEscapeSequence_control hcontrol
      rw [escapedString_control h.1 hcontrol, htail] at htext
      exact absurd List.mem_cons_self htext
    | false =>
      rw [escapedString_ascii h.1 hcontrol] at htext ⊢
      rw [ih h.2 (fun hmem => htext (List.mem_cons_of_mem _ hmem)), List.map_cons]

/-- The string that is read is equal to the one that was written, as an element of a
container. -/
theorem equal_parsedString (s : QString) :
  (JsonString.ofString s).equal (parsedString s) = true
  := by
  unfold JsonString.ofString parsedString
  split
  next hascii =>
    have hequal := equalInUtf8_ascii s hascii
    rw [← equalInUtf8_mixed] at hequal
    split
    next => exact hequal
    next h =>
      rw [escapedString_of_ascii s hascii h]
      split
      next => exact decide_eq_true rfl
      next => exact decide_eq_true rfl
  next =>
    split
    next => exact decide_eq_true rfl
    next h =>
      have hequal := equalInUtf8_escapedString s h
      rw [← equalInUtf8_mixed] at hequal
      split
      next => exact hequal
      next => exact hequal

end JsonParser
