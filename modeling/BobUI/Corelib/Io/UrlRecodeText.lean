import BobUI.Corelib.Io.UrlRecode
import BobUI.Corelib.Text.Utf8Inverse
import Mathlib.Tactic.Linarith

/-!
# The text that recoding writes

The loop of `recode` writes one text, whether or not the result is detached, and all its writes
are in the space that was reserved, where an `int` holds the sizes.
-/

namespace QUrlRecode

/-! ### The text -/

/-- What a turn writes. -/
def Turn.written (c : UInt16) (tail : QString) : Turn → QString
  | .copy => [c]
  | .percent => [0x25, 0x32, 0x35]
  | .decodeUtf8 units _ => units
  | .encodeUtf8 => (encodedUtf8 c tail).1.flatMap encodeByte
  | .leaveEncoded => [QUrlRecode.percent, toUpperHex (digits tail).1, toUpperHex (digits tail).2]
  | .decode decoded => [decoded.toUInt16]
  | .encode => encodeByte c.toUInt8
  | .invalid => []

/-- How many characters after `c` a turn reads. -/
def Turn.more (c : UInt16) (tail : QString) : Turn → ℕ
  | .copy | .percent | .encode | .invalid => 0
  | .decodeUtf8 _ charsNeeded => 3 * charsNeeded - 1
  | .encodeUtf8 => tail.length - (encodedUtf8 c tail).2.length
  | .leaveEncoded | .decode _ => 2

section

variable (table : ActionTable) (encoding : Encoding) (retryBadEncoding : Bool)

/-- The text that a pass writes, where the encoding is valid. -/
def recodeText : QString → Option QString
  | [] => some []
  | c :: tail =>
    match turn table encoding retryBadEncoding c tail with
    | .invalid => none
    | t => (recodeText (tail.drop (t.more c tail))).map (t.written c tail ++ ·)
termination_by rest => rest.length
decreasing_by rw [List.length_drop, List.length_cons]; omega

end

/-- A table where '%' is encoded and no hexadecimal digit is. -/
structure ActionTable.Sound (table : ActionTable) : Prop where
  percent : table.action percent = .EncodeCharacter
  hex : ∀ c, isHex c = true → table.action c ≠ .EncodeCharacter

variable {table : ActionTable} {encoding : Encoding} {retryBadEncoding : Bool}
  {c : UInt16} {tail : QString}

theorem recodeText_cons (h : turn table encoding retryBadEncoding c tail ≠ .invalid) :
  recodeText table encoding retryBadEncoding (c :: tail)
    = (recodeText table encoding retryBadEncoding
        (tail.drop ((turn table encoding retryBadEncoding c tail).more c tail))).map
      ((turn table encoding retryBadEncoding c tail).written c tail ++ ·)
  := by
  rw [recodeText]
  generalize turn table encoding retryBadEncoding c tail = t at *
  cases t with
  | invalid => exact absurd rfl h
  | copy => rfl
  | percent => rfl
  | decodeUtf8 units charsNeeded => rfl
  | encodeUtf8 => rfl
  | leaveEncoded => rfl
  | decode decoded => rfl
  | encode => rfl

theorem recodeText_invalid (h : turn table encoding retryBadEncoding c tail = .invalid) :
  recodeText table encoding retryBadEncoding (c :: tail) = none
  := by
  rw [recodeText, h]

/-! ### Turns -/

/-- The conditions of the turns. -/
def Turn.Spec (table : ActionTable) (encoding : Encoding) (retryBadEncoding : Bool) (c : UInt16)
    (tail : QString) : Turn → Prop
  | .copy => c ≠ QUrlRecode.percent ∧
    (0x20 ≤ c ∧ c < 0x80 ∧ table.action c ≠ .EncodeCharacter
      ∨ 0x80 ≤ c ∧ encoding.EncodeUnicode = false)
  | .percent => c = QUrlRecode.percent ∧ retryBadEncoding = true
  | .decodeUtf8 units charsNeeded =>
    c = QUrlRecode.percent ∧ retryBadEncoding = false ∧ encoding.EncodeUnicode = false
      ∧ ∃ decoded, decodePercentEncoding tail = some decoded ∧ 0x80 ≤ decoded
        ∧ fromUtf8 decoded (tail.drop 2) = some (units, charsNeeded)
  | .encodeUtf8 => 0x80 ≤ c ∧ encoding.EncodeUnicode = true
  | .leaveEncoded => c = QUrlRecode.percent ∧ retryBadEncoding = false
      ∧ ∃ decoded, decodePercentEncoding tail = some decoded
        ∧ (0x80 ≤ decoded
            ∧ (encoding.EncodeUnicode = false → fromUtf8 decoded (tail.drop 2) = none)
          ∨ ¬ 0x80 ≤ decoded
            ∧ ¬ (0x20 ≤ decoded ∧ table.action decoded.toUInt16 = .DecodeCharacter))
  | .decode decoded => c = QUrlRecode.percent ∧ retryBadEncoding = false
      ∧ decodePercentEncoding tail = some decoded ∧ ¬ 0x80 ≤ decoded ∧ 0x20 ≤ decoded
      ∧ table.action decoded.toUInt16 = .DecodeCharacter
  | .encode => c ≠ QUrlRecode.percent ∧ ¬ 0x80 ≤ c ∧ (0x20 ≤ c → table.action c = .EncodeCharacter)
  | .invalid => c = QUrlRecode.percent ∧ retryBadEncoding = false
      ∧ decodePercentEncoding tail = none

theorem turn_spec (hpercent : table.action percent = .EncodeCharacter) (c : UInt16)
    (tail : QString) :
  (turn table encoding retryBadEncoding c tail).Spec table encoding retryBadEncoding c tail
  := by
  unfold turn
  split
  next hcopy =>
    rw [Bool.and_eq_true, Bool.and_eq_true, decide_eq_true_eq, decide_eq_true_eq,
      decide_eq_true_eq] at hcopy
    refine ⟨?_, .inl ⟨hcopy.1.1, hcopy.1.2, hcopy.2⟩⟩
    rintro rfl
    exact hcopy.2 hpercent
  next hchange =>
    split
    next hc =>
      split
      next hretry => exact ⟨hc, hretry⟩
      next hfirst =>
        rw [Bool.not_eq_true] at hfirst
        split
        next hnone => exact ⟨hc, hfirst, hnone⟩
        next decoded hdecoded =>
          split
          next hhigh =>
            split
            next hunicode =>
              refine ⟨hc, hfirst, decoded, hdecoded, .inl ⟨hhigh, fun h => ?_⟩⟩
              rw [hunicode] at h
              cases h
            next hunicode =>
              rw [Bool.not_eq_true] at hunicode
              split
              next units charsNeeded hchar =>
                exact ⟨hc, hfirst, hunicode, decoded, hdecoded, hhigh, hchar⟩
              next hnone =>
                exact ⟨hc, hfirst, decoded, hdecoded, .inl ⟨hhigh, fun _ => hnone⟩⟩
          next hlow =>
            split
            next hdecode =>
              rw [Bool.and_eq_true, decide_eq_true_eq, decide_eq_true_eq] at hdecode
              exact ⟨hc, hfirst, hdecoded, hlow, hdecode⟩
            next hleave =>
              rw [Bool.and_eq_true, decide_eq_true_eq, decide_eq_true_eq] at hleave
              exact ⟨hc, hfirst, decoded, hdecoded, .inr ⟨hlow, hleave⟩⟩
    next hc =>
      split
      next hhigh =>
        split
        next hunicode => exact ⟨hhigh, hunicode⟩
        next hunicode => exact ⟨hc, .inr ⟨hhigh, by simpa using hunicode⟩⟩
      next hlow =>
        refine ⟨hc, hlow, fun hspace => ?_⟩
        by_contra haction
        apply hchange
        rw [Bool.and_eq_true, Bool.and_eq_true, decide_eq_true_eq, decide_eq_true_eq,
          decide_eq_true_eq]
        exact ⟨⟨hspace, UInt16.not_le.mp hlow⟩, haction⟩

theorem decodePercentEncoding_some {decoded : UInt8} (h : decodePercentEncoding tail = some decoded) :
  ∃ c1 c2 rest, tail = c1 :: c2 :: rest ∧ isHex c1 = true ∧ isHex c2 = true
    ∧ decoded = (decodeNibble c1 <<< 4 ||| decodeNibble c2).toUInt8
  := by
  unfold decodePercentEncoding at h
  split at h
  next c1 c2 rest =>
    split at h
    next hhex =>
      rw [Bool.and_eq_true] at hhex
      exact ⟨c1, c2, rest, rfl, hhex.1, hhex.2, (Option.some.inj h).symm⟩
    next => cases h
  next => cases h

theorem length_peekBytes (src : QString) :
  3 * (peekBytes src).length ≤ src.length
  := by
  induction src using peekBytes.induct with
  | case1 p c1 c2 rest ih =>
    rw [peekBytes, List.length_cons, List.length_cons, List.length_cons, List.length_cons]
    omega
  | case2 src h =>
    have hnil : peekBytes src = [] := by
      unfold peekBytes
      split
      next p c1 c2 rest => exact absurd rfl (h p c1 c2 rest)
      next => rfl
    rw [hnil]
    exact Nat.zero_le _

/-- A decoded character is one of several octets, which are all there. -/
theorem fromUtf8_some {b : UInt8} {src units : QString} {n : ℕ} (hb : 0x80 ≤ b)
    (h : fromUtf8 b src = some (units, n)) :
  QUtf8.fromUtf8 b (peekBytes src) = .char units n ∧ isNonCharacter (QUtf8.toUcs4 units) = false
    ∧ 2 ≤ n ∧ n ≤ 4 ∧ 3 * (n - 1) ≤ src.length ∧ 1 ≤ units.length ∧ units.length ≤ 2
  := by
  unfold fromUtf8 at h
  split at h
  next units' n' hchar =>
    split at h
    next => cases h
    next hnon =>
      cases h
      have hlength := length_peekBytes src
      obtain ⟨htwo, hfour, hsrc, hunits⟩ := QUtf8.fromUtf8_length hb hchar
      exact ⟨hchar, by simpa using hnon, htwo, hfour, by omega, hunits⟩
  next => cases h

/-! ### Space -/

theorem toInt_eq {x : ℤ} (hle : -2 ^ 31 ≤ x) (hlt : x < 2 ^ 31) :
  toInt x = x
  := by
  rw [toInt, Int.bmod_eq_of_le_mul_two]
  · omega
  · omega

/-- A buffer holds a text behind what the result held before, and so many more characters fit. -/
structure Buffer.Holds (b : Buffer) (origSize : ℤ) (text : QString) (space : ℤ) : Prop where
  text_eq : b.text = text
  pos_eq : b.pos = origSize + text.length
  space : space ≤ b.size - b.pos

theorem Buffer.Holds.putAll {b : Buffer} {origSize space : ℤ} {text : QString}
    (h : b.Holds origSize text space) (horig : 0 ≤ origSize) {cs : QString}
    (hcs : cs.length ≤ space) :
  ∃ b', b.putAll cs = .ok b' ∧ b'.Holds origSize (text ++ cs) (space - cs.length)
    ∧ b'.size = b.size
  := by
  induction cs generalizing b text space with
  | nil =>
    refine ⟨b, rfl, ?_, rfl⟩
    rw [List.append_nil, List.length_nil]
    exact ⟨h.text_eq, h.pos_eq, by have hspace := h.space; omega⟩
  | cons c cs ih =>
    rw [List.length_cons] at hcs ⊢
    have hspace := h.space
    have hpos := h.pos_eq
    have hput : b.put c = .ok ⟨b.size, b.pos + 1, b.text ++ [c]⟩ := by
      rw [Buffer.put, if_pos (by omega)]
    have hnext : (⟨b.size, b.pos + 1, b.text ++ [c]⟩ : Buffer).Holds origSize (text ++ [c])
        (space - 1) := by
      refine ⟨congrArg (· ++ [c]) h.text_eq, ?_, ?_⟩
      · rw [List.length_append, List.length_singleton]
        dsimp only
        omega
      · dsimp only
        omega
    obtain ⟨b', hall, hholds, hsize⟩ := ih hnext (by omega)
    refine ⟨b', ?_, ?_, hsize⟩
    · rw [Buffer.putAll, hput]
      exact hall
    · rw [List.append_assoc] at hholds
      refine ⟨hholds.text_eq, hholds.pos_eq, ?_⟩
      have hleft := hholds.space
      omega

theorem Buffer.putAll_singleton (b : Buffer) (c : UInt16) :
  b.putAll [c] = b.put c
  := by
  rw [Buffer.putAll]
  cases b.put c with
  | ok b' => rfl
  | error e => rfl

/-- What is written of the result. -/
def writtenText (processed : QString) : Option Buffer → QString
  | none => processed
  | some b => b.text

/-- The space in a buffer, from a place of the input on: three characters for one that is left. -/
structure Room (origSize : ℤ) (processed rest : QString) (b : Buffer) : Prop where
  holds : b.Holds origSize b.text (3 * rest.length)
  length : b.text.length ≤ 9 * processed.length
  size : b.size ≤ origSize + 9 * (processed.length + rest.length) + 24

/-- An `int` holds the sizes. -/
structure Fits (origSize : ℤ) (length : ℤ) : Prop where
  orig : 0 ≤ origSize
  size : origSize + 9 * length + 24 < 2 ^ 31

variable {origSize : ℤ} {processed rest : QString} {output : Option Buffer}

theorem ensureDetached_holds (hfits : Fits origSize (processed.length + rest.length))
    (hroom : ∀ b, output = some b → Room origSize processed rest b) {add : ℤ} (hadd : add ≤ 9)
    (hneg : 0 ≤ 3 * rest.length + add) :
  ∃ b, ensureDetached origSize processed rest add output = .ok b
    ∧ b.Holds origSize (writtenText processed output)
      (if output.isSome then 3 * rest.length else 3 * rest.length + add)
    ∧ (writtenText processed output).length ≤ 9 * processed.length
    ∧ b.size ≤ origSize + 9 * (processed.length + rest.length) + 24
  := by
  cases output with
  | some b =>
    obtain ⟨hholds, hlength, hsize⟩ := hroom b rfl
    exact ⟨b, rfl, hholds, hlength, hsize⟩
  | none =>
    have horig := hfits.orig
    have hint := hfits.size
    rw [ensureDetached, toInt_eq (x := processed.length) (by omega) (by omega),
      toInt_eq (x := rest.length) (by omega) (by omega),
      toInt_eq (x := 2 * (rest.length : ℤ)) (by omega) (by omega),
      toInt_eq (x := processed.length + rest.length + 2 * rest.length + add) (by omega)
        (by omega), toInt_eq (by omega) (by omega), Int.toNat_natCast, List.take_length]
    have hstart : (Buffer.resize ⟨origSize, origSize, []⟩ (origSize
        + (processed.length + rest.length + 2 * rest.length + add))).Holds origSize []
        (processed.length + (3 * rest.length + add)) := by
      refine ⟨rfl, (Int.add_zero _).symm, ?_⟩
      change _ ≤ max 0 (origSize + (processed.length + rest.length + 2 * rest.length + add))
        - origSize
      omega
    obtain ⟨b, hput, hholds, hsize⟩ := hstart.putAll horig
      (show (processed.length : ℤ) ≤ _ by omega)
    refine ⟨b, hput, ⟨hholds.text_eq, hholds.pos_eq, ?_⟩, ?_, ?_⟩
    · have hspace := hholds.space
      change 3 * (rest.length : ℤ) + add ≤ _
      omega
    · change processed.length ≤ _
      omega
    · rw [hsize]
      change max 0 (origSize + (processed.length + rest.length + 2 * rest.length + add)) ≤ _
      omega

theorem ensureSpace_holds (hfits : Fits origSize (processed.length + rest.length))
    (hroom : ∀ b, output = some b → Room origSize processed rest b) (hrest : 1 ≤ rest.length)
    {utf8len : ℤ} (htwo : 2 ≤ utf8len) (hfour : utf8len ≤ 4) :
  ∃ b, ensureSpace origSize processed rest utf8len output = .ok b
    ∧ b.Holds origSize (writtenText processed output) (3 * (rest.length - 1) + 3 * utf8len)
    ∧ (writtenText processed output).length ≤ 9 * processed.length
    ∧ b.size ≤ origSize + 9 * (processed.length + rest.length) + 24
  := by
  cases output with
  | none =>
    obtain ⟨b, hok, hholds, hlength, hsize⟩ := ensureDetached_holds hfits hroom
      (show 3 * utf8len - 3 ≤ 9 by omega) (by omega)
    refine ⟨b, hok, ⟨hholds.text_eq, hholds.pos_eq, ?_⟩, hlength, hsize⟩
    have hspace := hholds.space
    change 3 * (rest.length : ℤ) + (3 * utf8len - 3) ≤ _ at hspace
    omega
  | some b =>
    have horig := hfits.orig
    have hint := hfits.size
    obtain ⟨hholds, hlength, hsize⟩ := hroom b rfl
    have hpos := hholds.pos_eq
    have hspace := hholds.space
    rw [ensureSpace, toInt_eq (x := rest.length - 1) (by omega) (by omega),
      toInt_eq (x := b.pos) (by omega) (by omega),
      toInt_eq (x := b.size - b.pos) (by omega) (by omega),
      toInt_eq (x := 3 * (rest.length - 1) + 3 * utf8len) (by omega) (by omega)]
    refine ⟨_, rfl, ?_, hlength, ?_⟩
    · split
      next hsmall =>
        refine ⟨hholds.text_eq, hpos, ?_⟩
        change _ ≤ max 0 (b.size + 3 * utf8len) - b.pos
        omega
      next hlarge => exact ⟨hholds.text_eq, hpos, by omega⟩
    · split
      next hsmall =>
        change max 0 (b.size + 3 * utf8len) ≤ _
        omega
      next hlarge => exact hsize

/-! ### What a turn writes -/

theorem length_encodeBytes (bytes : QByteArray) :
  (bytes.flatMap encodeByte).length = 3 * bytes.length
  := by
  induction bytes with
  | nil => rfl
  | cons b bytes ih =>
    rw [List.flatMap_cons, List.length_append, ih, List.length_cons]
    change 3 + _ = _
    omega

theorem encodedUtf8_of_none (h : QUtf8.toUtf8 c tail = none) :
  encodedUtf8 c tail = (badOctets c, tail)
  := by
  rw [encodedUtf8, toUtf8, h]

theorem encodedUtf8_of_single {bytes : QByteArray} (h : QUtf8.toUtf8 c tail = some (bytes, tail))
    (hsingle : QUtf8.isSurrogate c.toNat = false) :
  encodedUtf8 c tail = (if isNonCharacter c.toNat then badOctets c else bytes, tail)
  := by
  have hnot : ¬ QUtf8.isHighSurrogate c = true := by
    rw [← Bool.not_eq_true, QUtf8.isSurrogate_iff] at hsingle
    rw [QUtf8.isHighSurrogate_iff]
    omega
  have hread : toUtf8 c tail
      = if isNonCharacter c.toNat then (none, tail) else (some bytes, tail) := by
    rw [toUtf8, h]
    dsimp only
    rw [if_neg hnot]
    rfl
  rw [encodedUtf8, hread]
  cases isNonCharacter c.toNat with
  | true => rfl
  | false => rfl

theorem encodedUtf8_of_pair {bytes : QByteArray} {low : UInt16}
    (h : QUtf8.toUtf8 c (low :: tail) = some (bytes, tail))
    (hhigh : QUtf8.isHighSurrogate c = true) :
  encodedUtf8 c (low :: tail)
    = (if isNonCharacter (QUtf8.surrogateToUcs4 c low) then badOctets c else bytes, tail)
  := by
  have hread : toUtf8 c (low :: tail)
      = if isNonCharacter (QUtf8.surrogateToUcs4 c low) then (none, tail)
        else (some bytes, tail) := by
    rw [toUtf8, h]
    dsimp only
    rw [if_pos hhigh]
    rfl
  rw [encodedUtf8, hread]
  cases isNonCharacter (QUtf8.surrogateToUcs4 c low) with
  | true => rfl
  | false => rfl

/-- How many octets `unicodeToEncodedUtf8` expects. -/
def utf8len (c : UInt16) : ℕ :=
  if QUtf8.isHighSurrogate c then 4 else if 0x800 ≤ c then 3 else 2

/-- There are no more octets than expected, and the second half of a pair is read where there are
four. -/
theorem encodedUtf8_length (hc : 0x80 ≤ c) (tail : QString) :
  (encodedUtf8 c tail).1.length ≤ utf8len c
    ∧ (encodedUtf8 c tail).2.length ≤ tail.length
    ∧ (encodedUtf8 c tail).1.length ≤ 3 + (tail.length - (encodedUtf8 c tail).2.length)
  := by
  have hlarge : 0x800 ≤ c.toNat → 3 ≤ utf8len c := by
    intro hn
    unfold utf8len
    split
    · decide
    · rw [if_pos (show (0x800 : UInt16) ≤ c from UInt16.le_iff_toNat_le.mpr hn)]
  have hbad : (badOctets c).length = 3 := rfl
  cases hoctets : QUtf8.toUtf8 c tail with
  | none =>
    have hsurrogate := QUtf8.toUtf8_eq_none hoctets
    rw [QUtf8.isSurrogate_iff] at hsurrogate
    rw [encodedUtf8_of_none hoctets]
    exact ⟨hlarge (by omega), Nat.le_refl _, Nat.le_add_right 3 _⟩
  | some octets =>
    obtain ⟨bytes, rest⟩ := octets
    rcases QUtf8.toUtf8_rest hoctets with ⟨rfl, hsingle, hlength⟩ | ⟨low, rfl, hpair, -, hlength⟩
    · rw [encodedUtf8_of_single hoctets hsingle]
      rw [if_neg (UInt16.not_lt.mpr hc)] at hlength
      have hbytes : bytes.length ≤ utf8len c ∧ bytes.length ≤ 3 := by
        rw [hlength]
        unfold utf8len
        split
        · split
          · decide
          · rw [if_neg (UInt16.not_le.mpr ‹_›)]
            decide
        · rename_i hthree
          exact ⟨hlarge (UInt16.le_iff_toNat_le.mp (UInt16.not_lt.mp hthree)), Nat.le_refl _⟩
      dsimp only
      split
      next hnon =>
        rw [isNonCharacter, Bool.and_eq_true, decide_eq_true_eq] at hnon
        exact ⟨hlarge (by omega), Nat.le_refl _, Nat.le_add_right 3 _⟩
      next => exact ⟨hbytes.1, Nat.le_refl _, Nat.le_trans hbytes.2 (Nat.le_add_right 3 _)⟩
    · rw [encodedUtf8_of_pair hoctets hpair]
      have hfour : utf8len c = 4 := if_pos hpair
      rw [hfour, List.length_cons]
      dsimp only
      split
      · rw [hbad]
        omega
      · rw [hlength]
        omega

/-- A buffer with enough space after a turn has written to it. -/
theorem Buffer.Holds.room {b : Buffer} {text : QString} {space : ℤ}
    (h : b.Holds origSize text space) (horig : 0 ≤ origSize)
    (hlength : text.length ≤ 9 * processed.length)
    (hsize : b.size ≤ origSize + 9 * (processed.length + (c :: tail).length) + 24) {w : QString}
    {more : ℕ} (hmore : more ≤ tail.length)
    (hspace : w.length + 3 * ((tail.length : ℤ) - more) ≤ space) (hw : w.length ≤ 9 * (1 + more)) :
  ∃ b', b.putAll w = .ok b' ∧ b'.text = text ++ w
    ∧ Room origSize (processed ++ c :: tail.take more) (tail.drop more) b'
  := by
  obtain ⟨b', hput, hholds, hsize'⟩ := h.putAll horig
    (show (w.length : ℤ) ≤ space by omega)
  refine ⟨b', hput, hholds.text_eq, ⟨⟨rfl, ?_, ?_⟩, ?_, ?_⟩⟩
  · rw [hholds.text_eq]
    exact hholds.pos_eq
  · have hleft := hholds.space
    rw [List.length_drop]
    omega
  · rw [hholds.text_eq, List.length_append, List.length_append, List.length_cons, List.length_take]
    omega
  · rw [hsize', List.length_append, List.length_cons, List.length_take, List.length_drop]
    rw [List.length_cons] at hsize
    omega

/-- The result of a turn that writes: a buffer with the text, and with space for the rest. -/
def Writes (origSize : ℤ) (processed : QString) (c : UInt16) (tail written : QString)
    (output : Option Buffer) (t : Turn) (result : Except Stop (Option Buffer × ℕ)) : Prop :=
  ∃ b, result = .ok (some b, t.more c tail) ∧ b.text = written ++ t.written c tail
    ∧ writtenText processed output = written
    ∧ Room origSize (processed ++ c :: tail.take (t.more c tail)) (tail.drop (t.more c tail)) b

/-- What a turn other than `encodeUtf8` writes into a buffer that `ensureDetached` returns. -/
theorem writes_detached (hfits : Fits origSize (processed.length + (c :: tail).length))
    (hroom : ∀ b, output = some b → Room origSize processed (c :: tail) b) {t : Turn} {add : ℤ}
    (hadd : add ≤ 9) (hneg : 0 ≤ 3 * ((c :: tail).length : ℤ) + add)
    (hmore : t.more c tail ≤ tail.length) (hlength : (t.written c tail).length ≤ 9)
    (hspace : (t.written c tail).length + 3 * ((tail.length : ℤ) - t.more c tail)
      ≤ 3 * (tail.length + 1) + min add 0) :
  Writes origSize processed c tail (writtenText processed output) output t
    (do
      let b ← ensureDetached origSize processed (c :: tail) add output
      return (some (← b.putAll (t.written c tail)), t.more c tail))
  := by
  obtain ⟨b, hok, hholds, htext, hsize⟩ := ensureDetached_holds hfits hroom hadd hneg
  have hleft : 3 * ((c :: tail).length : ℤ) + min add 0
      ≤ if output.isSome then 3 * ((c :: tail).length : ℤ) else 3 * (c :: tail).length + add := by
    split
    · omega
    · omega
  have hcons : ((c :: tail).length : ℤ) = tail.length + 1 := rfl
  obtain ⟨b', hput, htext', hroom'⟩ := hholds.room hfits.orig htext hsize hmore
    (show ((t.written c tail).length : ℤ) + _ ≤ _ by omega) (by omega)
  refine ⟨b', ?_, htext', rfl, hroom'⟩
  rw [hok]
  change (do return (some (← b.putAll (t.written c tail)), t.more c tail)) = _
  rw [hput]
  rfl

theorem isHex_bounds {c : UInt16} (h : isHex c = true) :
  0x20 ≤ c ∧ c < 0x80 ∧ c ≠ percent
  := by
  rw [isHex, Bool.or_eq_true, Bool.or_eq_true, Bool.and_eq_true, Bool.and_eq_true,
    Bool.and_eq_true, decide_eq_true_eq, decide_eq_true_eq, decide_eq_true_eq, decide_eq_true_eq,
    decide_eq_true_eq, decide_eq_true_eq] at h
  rw [percent, ne_eq, ← UInt16.toNat_inj]
  simp only [UInt16.le_iff_toNat_le, UInt16.lt_iff_toNat_lt, UInt16.reduceToNat] at h ⊢
  omega

/-- Nothing changes in a turn that copies, or that leaves a triplet in upper case. -/
def Turn.Unchanged (c : UInt16) (tail : QString) (t : Turn) : Prop :=
  t = .copy ∨ t = .leaveEncoded ∧ c = QUrlRecode.percent ∧ isUpperHex (digits tail).1 = true
    ∧ isUpperHex (digits tail).2 = true

theorem perform_ok (htable : table.Sound)
    (hfits : Fits origSize (processed.length + (c :: tail).length))
    (hroom : ∀ b, output = some b → Room origSize processed (c :: tail) b)
    (hvalid : turn table encoding retryBadEncoding c tail ≠ .invalid) :
  output = none ∧ (turn table encoding retryBadEncoding c tail).Unchanged c tail
      ∧ perform origSize processed c tail output (turn table encoding retryBadEncoding c tail)
        = .ok (none, 0)
    ∨ Writes origSize processed c tail (writtenText processed output) output
      (turn table encoding retryBadEncoding c tail)
      (perform origSize processed c tail output (turn table encoding retryBadEncoding c tail))
  := by
  have hspec := @turn_spec table encoding retryBadEncoding htable.percent c tail
  generalize turn table encoding retryBadEncoding c tail = t at *
  cases t with
  | invalid => exact absurd rfl hvalid
  | copy =>
    cases output with
    | none => exact .inl ⟨rfl, .inl rfl, rfl⟩
    | some b =>
      right
      have hholds := (hroom b rfl).holds
      obtain ⟨b', hput, htext, hroom'⟩ := hholds.room hfits.orig (hroom b rfl).length
        (hroom b rfl).size (Nat.zero_le _)
        (show (([c] : QString).length : ℤ) + _ ≤ _ by simp; omega) (by simp)
      refine ⟨b', ?_, htext, rfl, hroom'⟩
      rw [Buffer.putAll_singleton] at hput
      change (do return (some (← b.put c), 0)) = _
      rw [hput]
      rfl
  | percent =>
    right
    apply writes_detached hfits hroom
    · omega
    · omega
    · exact Nat.zero_le _
    · exact (by decide : 3 ≤ 9)
    · change (3 : ℤ) + 3 * (tail.length - 0) ≤ _
      omega
  | decodeUtf8 units charsNeeded =>
    right
    obtain ⟨rfl, -, -, decoded, hdecoded, hhigh, hchar⟩ := hspec
    obtain ⟨c1, c2, rest, rfl, -⟩ := decodePercentEncoding_some hdecoded
    obtain ⟨-, -, htwo, hfour, hsrc, hunits⟩ := fromUtf8_some hhigh hchar
    rw [List.drop_succ_cons, List.drop_succ_cons, List.drop_zero] at hsrc
    have hlength : (c1 :: c2 :: rest).length = rest.length + 2 := rfl
    have hcons : (percent :: c1 :: c2 :: rest).length = rest.length + 3 := rfl
    apply writes_detached hfits hroom
    · split
      · omega
      · omega
    · split
      · omega
      · omega
    · change 3 * charsNeeded - 1 ≤ _
      omega
    · change units.length ≤ 9
      omega
    · change (units.length : ℤ) + 3 * (_ - ((3 * charsNeeded - 1 : ℕ) : ℤ)) ≤ _
      split
      · omega
      · omega
  | encodeUtf8 =>
    right
    obtain ⟨hc, -⟩ := hspec
    obtain ⟨hbytes, hrest, hthree⟩ := encodedUtf8_length hc tail
    have hlen : 2 ≤ utf8len c ∧ utf8len c ≤ 4 := by
      unfold utf8len
      split_ifs
      · decide
      · decide
      · decide
    have hcast : (if QUtf8.isHighSurrogate c then 4 else if 0x800 ≤ c then 3 else 2 : ℤ)
        = utf8len c := by
      unfold utf8len
      split_ifs
      · rfl
      · rfl
      · rfl
    obtain ⟨b, hok, hholds, htext, hsize⟩ := ensureSpace_holds hfits hroom
      (Nat.succ_pos tail.length) (show (2 : ℤ) ≤ utf8len c by omega)
      (show (utf8len c : ℤ) ≤ 4 by omega)
    have hcons : ((c :: tail).length : ℤ) = tail.length + 1 := rfl
    have hwritten := length_encodeBytes (encodedUtf8 c tail).1
    obtain ⟨b', hput, htext', hroom'⟩ := hholds.room hfits.orig htext hsize
      (Nat.sub_le tail.length (encodedUtf8 c tail).2.length)
      (show (((encodedUtf8 c tail).1.flatMap encodeByte).length : ℤ) + _ ≤ _ by omega)
      (by omega)
    refine ⟨b', ?_, htext', rfl, hroom'⟩
    rw [perform, hcast, hok]
    change (do return (some (← b.putAll ((encodedUtf8 c tail).1.flatMap encodeByte)), _)) = _
    rw [hput]
    rfl
  | leaveEncoded =>
    obtain ⟨rfl, -, decoded, hdecoded, -⟩ := hspec
    obtain ⟨c1, c2, rest, rfl, -⟩ := decodePercentEncoding_some hdecoded
    have hlength : (c1 :: c2 :: rest).length = rest.length + 2 := rfl
    rw [perform]
    dsimp only [digits, List.headD_cons, List.tail_cons]
    split
    next hchange =>
      right
      apply writes_detached hfits hroom
      · omega
      · omega
      · exact Nat.le_add_left 2 rest.length
      · exact (by decide : 3 ≤ 9)
      · change (3 : ℤ) + 3 * (_ - 2) ≤ _
        omega
    next hsame =>
      left
      rw [Bool.or_eq_true, Bool.or_eq_true, not_or, not_or, Bool.not_eq_true',
        Bool.not_eq_false, Bool.not_eq_true', Bool.not_eq_false, Bool.not_eq_true,
        Option.isSome_eq_false_iff, Option.isNone_iff_eq_none] at hsame
      exact ⟨hsame.1.1, .inr ⟨rfl, rfl, hsame.1.2, hsame.2⟩, rfl⟩
  | decode decoded =>
    right
    obtain ⟨rfl, -, hdecoded, -⟩ := hspec
    obtain ⟨c1, c2, rest, rfl, -⟩ := decodePercentEncoding_some hdecoded
    have hlength : (c1 :: c2 :: rest).length = rest.length + 2 := rfl
    apply writes_detached hfits hroom
    · omega
    · omega
    · exact Nat.le_add_left 2 rest.length
    · exact (by decide : 1 ≤ 9)
    · change (1 : ℤ) + 3 * (_ - 2) ≤ _
      omega
  | encode =>
    right
    apply writes_detached hfits hroom
    · omega
    · omega
    · exact Nat.zero_le _
    · exact (by decide : 3 ≤ 9)
    · change (3 : ℤ) + 3 * (tail.length - 0) ≤ _
      omega

/-! ### The loop -/

theorem recodeLoop_none_copy (h : turn table encoding retryBadEncoding c tail = .copy) :
  recodeLoop table encoding retryBadEncoding origSize processed none (c :: tail)
    = recodeLoop table encoding retryBadEncoding origSize (processed ++ [c]) none tail
  := by
  rw [recodeLoop, h]
  rfl

theorem turn_ascii (hspace : 0x20 ≤ c) (hascii : c < 0x80)
    (h : table.action c ≠ .EncodeCharacter) (tail : QString) :
  turn table encoding retryBadEncoding c tail = .copy
  := by
  rw [turn, if_pos]
  rw [decide_eq_true hspace, decide_eq_true hascii, decide_eq_true h]
  rfl

theorem turn_hex (htable : table.Sound) (h : isHex c = true) (tail : QString) :
  turn table encoding retryBadEncoding c tail = .copy
  := by
  obtain ⟨hspace, hascii, -⟩ := isHex_bounds h
  exact turn_ascii hspace hascii (htable.hex c h) tail

theorem turn_leaveEncoded_tail (htable : table.Sound)
    (h : turn table encoding retryBadEncoding c tail = .leaveEncoded) :
  ∃ c1 c2 rest, tail = c1 :: c2 :: rest ∧ isHex c1 = true ∧ isHex c2 = true
  := by
  have hspec := @turn_spec table encoding retryBadEncoding htable.percent c tail
  rw [h] at hspec
  obtain ⟨-, -, decoded, hdecoded, -⟩ := hspec
  obtain ⟨c1, c2, rest, htail, hc1, hc2, -⟩ := decodePercentEncoding_some hdecoded
  exact ⟨c1, c2, rest, htail, hc1, hc2⟩

/-- Where nothing is detached, the digits after a triplet's '%' are read as characters. -/
theorem recodeLoop_none_leave (htable : table.Sound)
    (h : turn table encoding retryBadEncoding percent tail = .leaveEncoded)
    (hupper : isUpperHex (digits tail).1 = true ∧ isUpperHex (digits tail).2 = true) :
  recodeLoop table encoding retryBadEncoding origSize processed none (percent :: tail)
    = recodeLoop table encoding retryBadEncoding origSize
      (processed ++ percent :: tail.take 2) none (tail.drop 2)
  := by
  obtain ⟨c1, c2, rest, rfl, hc1, hc2⟩ := turn_leaveEncoded_tail htable h
  have hperform : perform origSize processed percent (c1 :: c2 :: rest) none .leaveEncoded
      = .ok (none, 0) := by
    rw [perform]
    dsimp only [digits, List.headD_cons, List.tail_cons] at hupper ⊢
    rw [hupper.1, hupper.2]
    rfl
  rw [recodeLoop, h, hperform]
  change recodeLoop table encoding retryBadEncoding origSize (processed ++ [percent]) none
    (c1 :: c2 :: rest) = _
  rw [recodeLoop_none_copy (turn_hex htable hc1 _),
    recodeLoop_none_copy (turn_hex htable hc2 _), List.append_assoc, List.append_assoc]
  rfl

/-- What a pass returns whose text from a place of the input on is `text`. -/
def Yields (origSize : ℤ) (processed rest : QString) (output : Option Buffer)
    (text : Option QString) (result : Except Stop (Option Buffer)) : Prop :=
  match text with
  | none => result = .error .invalidEncoding
  | some text => ∃ output', result = .ok output'
    ∧ writtenText (processed ++ rest) output' = writtenText processed output ++ text
    ∧ ∀ b, output' = some b → Room origSize (processed ++ rest) [] b

theorem Yields.step {more : ℕ} {output output' : Option Buffer} {w : QString}
    {text : Option QString} {result : Except Stop (Option Buffer)}
    (h : Yields origSize (processed ++ c :: tail.take more) (tail.drop more) output' text result)
    (htext : writtenText (processed ++ c :: tail.take more) output'
      = writtenText processed output ++ w) :
  Yields origSize processed (c :: tail) output (text.map (w ++ ·)) result
  := by
  cases text with
  | none => exact h
  | some text =>
    obtain ⟨output'', hok, hwritten, hroom⟩ := h
    rw [List.append_assoc, List.cons_append, List.take_append_drop] at hwritten hroom
    refine ⟨output'', hok, ?_, hroom⟩
    rw [hwritten, htext, List.append_assoc]

theorem toUpperHex_of_isUpperHex (h : isUpperHex c = true) :
  toUpperHex c = c
  := by
  rw [toUpperHex, if_pos h]

theorem Fits.drop (h : Fits origSize (processed.length + (c :: tail).length)) (more : ℕ) :
  Fits origSize ((processed ++ c :: tail.take more).length + (tail.drop more).length)
  := by
  rw [← Nat.cast_add, ← List.length_append, List.append_assoc, List.cons_append,
    List.take_append_drop, List.length_append, Nat.cast_add]
  exact h

theorem recodeLoop_text (htable : table.Sound) (rest processed : QString)
    (output : Option Buffer) (hfits : Fits origSize (processed.length + rest.length))
    (hroom : ∀ b, output = some b → Room origSize processed rest b) :
  Yields origSize processed rest output (recodeText table encoding retryBadEncoding rest)
    (recodeLoop table encoding retryBadEncoding origSize processed output rest)
  := by
  induction rest using recodeText.induct table encoding retryBadEncoding generalizing processed
    output with
  | case1 =>
    rw [recodeText, recodeLoop]
    refine ⟨output, rfl, ?_, ?_⟩
    · rw [List.append_nil, List.append_nil]
    · rwa [List.append_nil]
  | case2 c tail hinvalid =>
    rw [recodeText_invalid hinvalid, recodeLoop, hinvalid]
    rfl
  | case3 c tail hvalid ih =>
    rw [recodeText_cons hvalid]
    rcases perform_ok htable hfits hroom hvalid with ⟨rfl, hsame, -⟩ | hwrites
    · rcases hsame with hcopy | ⟨hleave, rfl, hupper⟩
      · rw [hcopy] at ih ⊢
        rw [recodeLoop_none_copy hcopy]
        have hrest := ih (processed ++ [c]) none (hfits.drop 0) (by rintro b ⟨⟩)
        exact Yields.step (show Yields _ (processed ++ c :: tail.take 0) (tail.drop 0) _ _ _
          from hrest) rfl
      · obtain ⟨c1, c2, rest, rfl, -⟩ := turn_leaveEncoded_tail htable hleave
        rw [hleave] at ih ⊢
        rw [recodeLoop_none_leave htable hleave hupper]
        have hrest := ih (processed ++ [percent, c1, c2]) none (hfits.drop 2) (by rintro b ⟨⟩)
        apply Yields.step (show Yields _ (processed ++ percent :: (c1 :: c2 :: rest).take 2)
          ((c1 :: c2 :: rest).drop 2) _ _ _ from hrest)
        · dsimp only [digits, List.headD_cons, List.tail_cons] at hupper
          dsimp only [Turn.written, digits, List.headD_cons, List.tail_cons]
          rw [toUpperHex_of_isUpperHex hupper.1, toUpperHex_of_isUpperHex hupper.2]
          rfl
    · obtain ⟨b, hperform, htext, -, hroom'⟩ := hwrites
      rw [recodeLoop, hperform]
      apply Yields.step
      · apply ih
        · exact hfits.drop _
        · rintro b' hb'
          cases hb'
          exact hroom'
      · exact htext

/-! ### Recoding -/

theorem Room.appended {b : Buffer} {input : QString} (h : Room origSize input [] b)
    (hfits : Fits origSize input.length) :
  b.appended origSize = b.text
  := by
  have hpos := h.holds.pos_eq
  have hspace := h.holds.space
  have hsize := h.size
  have horig := hfits.orig
  have hint := hfits.size
  rw [List.length_nil] at hspace hsize
  rw [Buffer.appended, toInt_eq (by omega) (by omega), hpos, add_sub_cancel_left,
    Int.toNat_natCast, List.take_length]

theorem recodeText_retry (htable : table.Sound) (input : QString) :
  (recodeText table encoding true input).isSome = true
  := by
  induction input using recodeText.induct table encoding true with
  | case1 =>
    rw [recodeText]
    rfl
  | case2 c tail hinvalid =>
    have hspec := @turn_spec table encoding true htable.percent c tail
    rw [hinvalid] at hspec
    cases hspec.2.1
  | case3 c tail hvalid ih =>
    rw [recodeText_cons hvalid, Option.isSome_map]
    exact ih

/-- The text that recoding yields: that of the first pass, or where the encoding is not valid that
of the second one, where every '%' is encoded. -/
def recodedText (table : ActionTable) (encoding : Encoding) (input : QString) : QString :=
  ((recodeText table encoding false input).or (recodeText table encoding true input)).getD []

/-- `recode` ends, every write is in the space that was reserved, and the text is the one that was
appended, or the input where nothing was appended. -/
theorem recode_text (htable : table.Sound) (encoding : Encoding) {input : QString}
    (hfits : Fits origSize input.length) :
  ∃ result, recode table encoding origSize input = .ok result
    ∧ result.getD input = recodedText table encoding input
  := by
  have hpass : ∀ retryBadEncoding, Yields origSize [] input none
      (recodeText table encoding retryBadEncoding input)
      (recodeLoop table encoding retryBadEncoding origSize [] none input) := by
    intro retryBadEncoding
    apply recodeLoop_text htable
    · rw [List.length_nil, Nat.cast_zero, Int.zero_add]
      exact hfits
    · rintro b ⟨⟩
  have hresult : ∀ {text output}, writtenText ([] ++ input) output = writtenText [] none ++ text →
      (∀ b, output = some b → Room origSize ([] ++ input) [] b) →
      (output.map (Buffer.appended origSize)).getD input = text := by
    intro text output htext hroom
    cases output with
    | none => exact htext
    | some b =>
      rw [Option.map_some, Option.getD_some, (hroom b rfl).appended hfits]
      exact htext
  have hfirst := hpass false
  unfold recode recodedText
  cases hread : recodeText table encoding false input with
  | some text =>
    rw [hread] at hfirst
    obtain ⟨output, hok, htext, hroom⟩ := hfirst
    rw [hok]
    exact ⟨_, rfl, hresult htext hroom⟩
  | none =>
    rw [hread] at hfirst
    have hinvalid : recodeLoop table encoding false origSize [] none input
        = .error .invalidEncoding := hfirst
    have hsecond := hpass true
    obtain ⟨text, hsome⟩ := Option.isSome_iff_exists.mp
      (@recodeText_retry table encoding htable input)
    rw [hsome] at hsecond
    obtain ⟨output, hok, htext, hroom⟩ := hsecond
    rw [hinvalid, hsome]
    dsimp only
    rw [hok]
    exact ⟨_, rfl, hresult htext hroom⟩

end QUrlRecode
