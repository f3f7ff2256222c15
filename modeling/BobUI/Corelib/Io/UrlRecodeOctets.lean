import BobUI.Corelib.Io.UrlRecodeText

/-!
# What recoding preserves

A text denotes octets: a triplet is an octet, and other characters are in UTF-8.  Recoding
preserves them, and recoding its result changes nothing, unless a noncharacter that is a pair of
surrogates is encoded, whose second half is lost.
-/

namespace QUrlRecode

/-! ### The octets of a text -/

/-- Two hexadecimal digits follow every '%'. -/
def valid : QString → Bool
  | [] => true
  | c :: tail => (c ≠ percent || (decodePercentEncoding tail).isSome) && valid tail

/-- The octet of the triplet in front, unless every '%' is literal. -/
def triplet (literal : Bool) (c : UInt16) (tail : QString) : Option UInt8 :=
  if c = percent && !literal then decodePercentEncoding tail else none

/-- The octets of a text where triplets are decoded, or every '%' is literal. -/
def octets (literal : Bool) : QString → QByteArray
  | [] => []
  | c :: tail =>
    match triplet literal c tail, QUtf8.toUtf8 c tail with
    | some b, _ => b :: octets literal (tail.drop 2)
    | none, some (bytes, rest) => bytes ++ octets literal (tail.drop (tail.length - rest.length))
    | none, none => octets literal tail
termination_by text => text.length
decreasing_by
  · rw [List.length_drop, List.length_cons]
    omega
  · rw [List.length_drop, List.length_cons]
    omega
  · rw [List.length_cons]
    omega

/-- The octets that a text denotes: every '%' is literal where one is not part of a triplet. -/
def denoted (text : QString) : QByteArray :=
  octets (!valid text) text

/-- There is a noncharacter that is a pair of surrogates. -/
def supplementaryNonCharacter : QString → Bool
  | high :: low :: rest =>
    QUtf8.isHighSurrogate high && QUtf8.isLowSurrogate low
        && isNonCharacter (QUtf8.surrogateToUcs4 high low)
      || supplementaryNonCharacter (low :: rest)
  | _ => false

variable {literal : Bool} {c : UInt16} {tail rest : QString} {b : UInt8} {bytes : QByteArray}

theorem octets_triplet (h : decodePercentEncoding tail = some b) :
  octets false (percent :: tail) = b :: octets false (tail.drop 2)
  := by
  have htriplet : triplet false percent tail = some b := h
  rw [octets, htriplet]

theorem octets_char (h : c ≠ percent ∨ literal = true) {k : ℕ}
    (hchar : QUtf8.toUtf8 c tail = some (bytes, tail.drop k)) :
  octets literal (c :: tail) = bytes ++ octets literal (tail.drop k)
  := by
  have htriplet : triplet literal c tail = none := by
    rw [triplet, if_neg]
    rw [Bool.and_eq_true, decide_eq_true_eq, Bool.not_eq_true']
    rcases h with hc | hliteral
    · exact fun h => hc h.1
    · rw [hliteral]
      exact fun h => Bool.noConfusion h.2
  have hdrop : tail.drop (tail.length - (tail.drop k).length) = tail.drop k := by
    rw [List.length_drop]
    rcases Nat.le_total k tail.length with hk | hk
    · rw [Nat.sub_sub_self hk]
    · rw [Nat.sub_eq_zero_of_le hk, Nat.sub_zero, List.drop_length, List.drop_eq_nil_of_le hk]
  rw [octets, htriplet, hchar]
  dsimp only
  rw [hdrop]

theorem octets_ascii (h : c < 0x80) (hc : c ≠ percent ∨ literal = true) (tail : QString) :
  octets literal (c :: tail) = c.toUInt8 :: octets literal tail
  := by
  exact @octets_char literal c tail [c.toUInt8] hc 0 (QUtf8.toUtf8_ascii h tail)

theorem supplementaryNonCharacter_cons (h : QUtf8.isHighSurrogate c = false) (tail : QString) :
  supplementaryNonCharacter (c :: tail) = supplementaryNonCharacter tail
  := by
  cases tail with
  | nil => rfl
  | cons low rest =>
    rw [supplementaryNonCharacter, h]
    rfl

/-- A turn that leaves `rest` of the input and writes the octets that it has read. -/
structure Faithful (encoding : Encoding) (literal : Bool) (input written rest : QString) :
    Prop where
  octets : ∃ bytes, octets literal input = bytes ++ octets literal rest
    ∧ ∀ out, QUrlRecode.octets false (written ++ out) = bytes ++ QUrlRecode.octets false out
  paired : QUtf8.paired input = true → QUtf8.paired rest = true
  supplementary : encoding.EncodeUnicode = true →
    supplementaryNonCharacter input = supplementaryNonCharacter rest

/-! ### Triplets -/

/-- The triplet of an octet. -/
theorem encoded_octet (b : UInt8) :
  decodePercentEncoding [encodeNibble (b >>> 4), encodeNibble (b &&& 0xf)] = some b
    ∧ (isUpperHex (encodeNibble (b >>> 4)) = true ∧ isUpperHex (encodeNibble (b &&& 0xf)) = true)
    ∧ (QUtf8.isContinuationByte b = true → 0x80 ≤ b)
  := by
  revert b
  apply QUtf8.forall_octet
  set_option maxRecDepth 10000 in
  decide

/-- A hexadecimal digit in upper case. -/
theorem upper_digit (h : isHex c = true) :
  isHex (toUpperHex c) = true ∧ decodeNibble (toUpperHex c) = decodeNibble c
    ∧ isUpperHex (toUpperHex c) = true
  := by
  have hall : ∀ n : Fin 0x80, isHex (UInt16.ofNat n.val) = true →
      isHex (toUpperHex (UInt16.ofNat n.val)) = true
        ∧ decodeNibble (toUpperHex (UInt16.ofNat n.val)) = decodeNibble (UInt16.ofNat n.val)
        ∧ isUpperHex (toUpperHex (UInt16.ofNat n.val)) = true := by
    decide
  have hdigit := hall ⟨c.toNat, UInt16.lt_iff_toNat_lt.mp (isHex_bounds h).2.1⟩
  rw [UInt16.ofNat_toNat] at hdigit
  exact hdigit h

theorem decodePercentEncoding_encodeByte (b : UInt8) (out : QString) :
  decodePercentEncoding (encodeNibble (b >>> 4) :: encodeNibble (b &&& 0xf) :: out) = some b
  := (encoded_octet b).1

theorem octets_encodeBytes (bytes : QByteArray) (out : QString) :
  octets false (bytes.flatMap encodeByte ++ out) = bytes ++ octets false out
  := by
  induction bytes with
  | nil => rfl
  | cons b bytes ih =>
    rw [List.flatMap_cons, List.append_assoc]
    change octets false (percent :: encodeNibble (b >>> 4) :: encodeNibble (b &&& 0xf)
      :: (bytes.flatMap encodeByte ++ out)) = _
    rw [octets_triplet (decodePercentEncoding_encodeByte b _)]
    exact congrArg (b :: ·) ih

theorem decodePercentEncoding_toUpperHex {c1 c2 : UInt16} (hc1 : isHex c1 = true)
    (hc2 : isHex c2 = true) (out : QString) :
  decodePercentEncoding (toUpperHex c1 :: toUpperHex c2 :: out)
    = decodePercentEncoding (c1 :: c2 :: out)
  := by
  unfold decodePercentEncoding
  dsimp only
  rw [(upper_digit hc1).1, (upper_digit hc2).1, (upper_digit hc1).2.1, (upper_digit hc2).2.1,
    hc1, hc2]

theorem isUpperHex_toUpperHex (h : isHex c = true) :
  isUpperHex (toUpperHex c) = true
  := (upper_digit h).2.2

/-- Behind a triplet, a text goes on. -/
theorem triplet_rest (h : decodePercentEncoding tail = some b) :
  QUtf8.paired (percent :: tail) = QUtf8.paired (tail.drop 2)
    ∧ supplementaryNonCharacter (percent :: tail) = supplementaryNonCharacter (tail.drop 2)
    ∧ valid (percent :: tail) = valid (tail.drop 2)
  := by
  obtain ⟨c1, c2, rest, rfl, hc1, hc2, rfl⟩ := decodePercentEncoding_some h
  obtain ⟨-, hascii₁, hne₁⟩ := isHex_bounds hc1
  obtain ⟨-, hascii₂, hne₂⟩ := isHex_bounds hc2
  have hpercent := QUtf8.isSurrogate_ascii (show percent < 0x80 by decide)
  have h₁ := QUtf8.isSurrogate_ascii hascii₁
  have h₂ := QUtf8.isSurrogate_ascii hascii₂
  refine ⟨?_, ?_, ?_⟩
  · rw [QUtf8.paired_cons hpercent, QUtf8.paired_cons h₁, QUtf8.paired_cons h₂]
    rfl
  · rw [supplementaryNonCharacter_cons (QUtf8.isHighSurrogate_of_not hpercent).1,
      supplementaryNonCharacter_cons (QUtf8.isHighSurrogate_of_not h₁).1,
      supplementaryNonCharacter_cons (QUtf8.isHighSurrogate_of_not h₂).1]
    rfl
  · rw [valid, valid, valid, h, decide_eq_true hne₁, decide_eq_true hne₂]
    simp

/-- A continuation octet that is found ahead is that of a triplet. -/
theorem peekBytes_continuation {src : QString} {bs : QByteArray} (h : peekBytes src = b :: bs)
    (hb : QUtf8.isContinuationByte b = true) :
  ∃ c1 c2 rest, src = percent :: c1 :: c2 :: rest
    ∧ decodePercentEncoding (c1 :: c2 :: rest) = some b ∧ peekBytes rest = bs
  := by
  unfold peekBytes at h
  split at h
  next p c1 c2 rest =>
    rw [List.cons.injEq] at h
    obtain ⟨hhead, htail⟩ := h
    split at hhead
    next hp =>
      refine ⟨c1, c2, rest, by rw [hp], ?_, htail⟩
      change decodePercentEncoding [c1, c2] = some b
      cases hdecode : decodePercentEncoding [c1, c2] with
      | some decoded =>
        rw [hdecode] at hhead
        exact congrArg some hhead
      | none =>
        rw [hdecode] at hhead
        subst hhead
        cases hb
    next =>
      subst hhead
      cases hb
  next => cases h

theorem peeked {k : ℕ} {src : QString} (hk : k ≤ (peekBytes src).length)
    (h : ∀ b ∈ (peekBytes src).take k, QUtf8.isContinuationByte b = true) :
  octets false src = (peekBytes src).take k ++ octets false (src.drop (3 * k))
    ∧ QUtf8.paired src = QUtf8.paired (src.drop (3 * k))
    ∧ supplementaryNonCharacter src = supplementaryNonCharacter (src.drop (3 * k))
    ∧ valid src = valid (src.drop (3 * k))
  := by
  induction k generalizing src with
  | zero => exact ⟨rfl, rfl, rfl, rfl⟩
  | succ k ih =>
    cases hpeek : peekBytes src with
    | nil =>
      rw [hpeek] at hk
      cases hk
    | cons b bs =>
      rw [hpeek] at h hk
      rw [List.take_succ_cons, List.forall_mem_cons] at h
      obtain ⟨c1, c2, rest, rfl, hdecode, rfl⟩ := peekBytes_continuation hpeek h.1
      obtain ⟨hoctets, hpaired, hsupplementary, hvalid⟩ :=
        ih (Nat.le_of_succ_le_succ hk) h.2
      obtain ⟨hpaired', hsupplementary', hvalid'⟩ := triplet_rest hdecode
      have hdrop : (percent :: c1 :: c2 :: rest).drop (3 * (k + 1)) = rest.drop (3 * k) := rfl
      rw [hdrop, octets_triplet hdecode, hpaired', hsupplementary', hvalid']
      exact ⟨congrArg (b :: ·) hoctets, hpaired, hsupplementary, hvalid⟩

/-! ### Turns -/

variable {table : ActionTable} {encoding : Encoding} {retryBadEncoding : Bool}

/-- A character of one code unit that is copied. -/
theorem faithful_copy (hc : c ≠ percent) (h : QUtf8.isSurrogate c.toNat = false)
    (tail : QString) :
  Faithful encoding literal (c :: tail) [c] tail
  := by
  obtain ⟨bytes, hbytes⟩ := QUtf8.toUtf8_single h
  refine ⟨⟨bytes, ?_, fun out => ?_⟩, ?_, fun _ => ?_⟩
  · exact @octets_char literal c tail bytes (.inl hc) 0 (hbytes tail)
  · exact @octets_char false c out bytes (.inl hc) 0 (hbytes out)
  · rw [QUtf8.paired_cons h]
    exact id
  · exact supplementaryNonCharacter_cons (QUtf8.isHighSurrogate_of_not h).1 tail

theorem ne_percent (h : 0x80 ≤ c) :
  c ≠ percent
  := by
  rintro rfl
  exact absurd h (by decide)

variable {text input out : QString} {low : UInt16} {tableModifications : List Modification}

/-- A pair of surrogates that is copied. -/
theorem faithful_pair (hhigh : QUtf8.isHighSurrogate c = true)
    (hlow : QUtf8.isLowSurrogate low = true) (hunicode : encoding.EncodeUnicode = false)
    (rest : QString) :
  Faithful encoding literal (c :: low :: rest) [c, low] rest
  := by
  obtain ⟨b, bytes, -, hbytes⟩ := QUtf8.toUtf8_pair hhigh hlow
  have hc := ne_percent (QUtf8.le_of_isHighSurrogate hhigh)
  refine ⟨⟨b :: bytes, ?_, fun out => ?_⟩, ?_, fun h => ?_⟩
  · exact @octets_char literal c (low :: rest) (b :: bytes) (.inl hc) 1 (hbytes rest)
  · exact @octets_char false c (low :: out) (b :: bytes) (.inl hc) 1 (hbytes out)
  · rw [QUtf8.paired_pair hhigh, hlow]
    exact id
  · rw [hunicode] at h
    cases h

/-- A character whose octets are written in percent-encoding. -/
theorem faithful_encode (hc : c ≠ percent ∨ literal = true) {k : ℕ}
    (hbytes : QUtf8.toUtf8 c tail = some (bytes, tail.drop k))
    (hpaired : QUtf8.paired (c :: tail) = true → QUtf8.paired (tail.drop k) = true)
    (hsupplementary : supplementaryNonCharacter (c :: tail)
      = supplementaryNonCharacter (tail.drop k)) :
  Faithful encoding literal (c :: tail) (bytes.flatMap encodeByte) (tail.drop k)
  := by
  exact ⟨⟨bytes, octets_char hc hbytes, octets_encodeBytes bytes⟩, hpaired,
    fun _ => hsupplementary⟩

/-- A character in US-ASCII that is encoded. -/
theorem faithful_encode_ascii (h : c < 0x80) (hc : c ≠ percent ∨ literal = true)
    (tail : QString) :
  Faithful encoding literal (c :: tail) (encodeByte c.toUInt8) tail
  := by
  have hsurrogate := QUtf8.isSurrogate_ascii h
  apply @faithful_encode literal c tail [c.toUInt8] encoding hc 0 (QUtf8.toUtf8_ascii h tail)
  · rw [QUtf8.paired_cons hsurrogate]
    exact id
  · exact supplementaryNonCharacter_cons (QUtf8.isHighSurrogate_of_not hsurrogate).1 tail

/-- A triplet whose octet is written as it is or as a triplet. -/
theorem faithful_triplet (h : decodePercentEncoding tail = some b) {written : QString}
    (hwritten : ∀ out, octets false (written ++ out) = b :: octets false out) :
  Faithful encoding false (percent :: tail) written (tail.drop 2)
  := by
  obtain ⟨hpaired, hsupplementary, -⟩ := triplet_rest h
  exact ⟨⟨[b], octets_triplet h, hwritten⟩, by rw [hpaired]; exact id, fun _ => hsupplementary⟩

/-- The triplets of a character that are decoded. -/
theorem faithful_decodeUtf8 (h : decodePercentEncoding tail = some b) (hb : 0x80 ≤ b)
    {units : QString} {n : ℕ} (hchar : fromUtf8 b (tail.drop 2) = some (units, n)) :
  Faithful encoding false (percent :: tail) units (tail.drop (3 * n - 1))
  := by
  obtain ⟨hread, -, htwo, -, -, -⟩ := fromUtf8_some hb hchar
  obtain ⟨u, us, rfl, hu, hwrite⟩ := QUtf8.toUtf8_fromUtf8 hb hread
  obtain ⟨-, hlength, -⟩ := QUtf8.fromUtf8_char hread
  obtain ⟨hoctets, hpaired, hsupplementary, -⟩ := peeked (show n - 1 ≤ _ by omega)
    (QUtf8.fromUtf8_octets hread).1
  obtain ⟨hpaired', hsupplementary', -⟩ := triplet_rest h
  have hdrop : (tail.drop 2).drop (3 * (n - 1)) = tail.drop (3 * n - 1) := by
    rw [List.drop_drop]
    congr 1
    omega
  rw [hdrop] at hoctets hpaired hsupplementary
  refine ⟨⟨b :: (peekBytes (tail.drop 2)).take (n - 1), ?_, fun out => ?_⟩, ?_, fun _ => ?_⟩
  · rw [octets_triplet h, hoctets]
    rfl
  · have hout := @octets_char false u (us ++ out) _
      (.inl (ne_percent (UInt16.not_lt.mp hu))) us.length
      (by rw [List.drop_left]; exact hwrite out)
    rw [List.drop_left] at hout
    exact hout
  · rw [hpaired', hpaired]
    exact id
  · rw [hsupplementary', hsupplementary]

/-- The octets of a character in the basic plane from U+0800 on. -/
theorem toUtf8_badOctets (h : QUtf8.isSurrogate c.toNat = false) (hc : 0x800 ≤ c.toNat)
    (src : QString) :
  QUtf8.toUtf8 c src = some (badOctets c, src)
  := by
  unfold QUtf8.toUtf8
  rw [if_neg, if_neg, h]
  · rfl
  · rw [UInt16.lt_iff_toNat_lt]
    exact Nat.not_lt_of_le hc
  · rw [UInt16.lt_iff_toNat_lt]
    change ¬ _ < 0x80
    omega

/-- A character that is not a supplementary noncharacter is encoded in UTF-8. -/
theorem faithful_encodeUtf8_single (hc : 0x80 ≤ c) (h : QUtf8.isSurrogate c.toNat = false)
    (tail : QString) :
  (encodedUtf8 c tail).2 = tail
    ∧ Faithful encoding literal (c :: tail) ((encodedUtf8 c tail).1.flatMap encodeByte) tail
  := by
  obtain ⟨bytes, hbytes⟩ := QUtf8.toUtf8_single h
  have hoctets : (encodedUtf8 c tail).1 = bytes := by
    rw [encodedUtf8_of_single (hbytes tail) h]
    dsimp only
    split
    next hnon =>
      rw [isNonCharacter, Bool.and_eq_true, decide_eq_true_eq] at hnon
      have hbad := toUtf8_badOctets h (show 0x800 ≤ c.toNat by omega) tail
      rw [hbytes] at hbad
      cases hbad
      rfl
    next => rfl
  refine ⟨by rw [encodedUtf8_of_single (hbytes tail) h], ?_⟩
  rw [hoctets]
  apply @faithful_encode literal c tail bytes encoding (.inl (ne_percent hc)) 0 (hbytes tail)
  · rw [QUtf8.paired_cons h]
    exact id
  · exact supplementaryNonCharacter_cons (QUtf8.isHighSurrogate_of_not h).1 tail

theorem encodedUtf8_rest_pair (hhigh : QUtf8.isHighSurrogate c = true)
    (hlow : QUtf8.isLowSurrogate low = true) (rest : QString) :
  (encodedUtf8 c (low :: rest)).2 = rest
  := by
  obtain ⟨b, bytes, -, hbytes⟩ := QUtf8.toUtf8_pair hhigh hlow
  rw [encodedUtf8_of_pair (hbytes rest) hhigh]

theorem encodedUtf8_rest (c : UInt16) (tail : QString) :
  (encodedUtf8 c tail).2 = tail
    ∨ ∃ low rest, tail = low :: rest ∧ QUtf8.isLowSurrogate low = true
      ∧ (encodedUtf8 c tail).2 = rest
  := by
  cases hoctets : QUtf8.toUtf8 c tail with
  | none => exact .inl (by rw [encodedUtf8_of_none hoctets])
  | some octets =>
    obtain ⟨bytes, rest⟩ := octets
    rcases QUtf8.toUtf8_rest hoctets with ⟨rfl, hsingle, -⟩ | ⟨low, rfl, hhigh, hlow, -⟩
    · exact .inl (by rw [encodedUtf8_of_single hoctets hsingle])
    · exact .inr ⟨low, rest, rfl, hlow, encodedUtf8_rest_pair hhigh hlow rest⟩

/-- A pair of surrogates that is not a noncharacter is encoded in UTF-8. -/
theorem faithful_encodeUtf8_pair (hhigh : QUtf8.isHighSurrogate c = true)
    (hlow : QUtf8.isLowSurrogate low = true)
    (h : isNonCharacter (QUtf8.surrogateToUcs4 c low) = false) (rest : QString) :
  Faithful encoding literal (c :: low :: rest)
    ((encodedUtf8 c (low :: rest)).1.flatMap encodeByte) rest
  := by
  obtain ⟨b, bytes, -, hbytes⟩ := QUtf8.toUtf8_pair hhigh hlow
  have hc := ne_percent (QUtf8.le_of_isHighSurrogate hhigh)
  rw [encodedUtf8_of_pair (hbytes rest) hhigh, h]
  apply @faithful_encode literal c (low :: rest) (b :: bytes) encoding (.inl hc) 1
    (hbytes rest)
  · rw [QUtf8.paired_pair hhigh, hlow]
    exact id
  · rw [supplementaryNonCharacter, h, Bool.and_false, Bool.false_or]
    exact supplementaryNonCharacter_cons (QUtf8.isHighSurrogate_of_low hlow) rest

/-- Of a noncharacter that is a pair, only the first half is encoded: the octets differ from the
first one on. -/
theorem encodeUtf8_nonCharacter (hhigh : QUtf8.isHighSurrogate c = true)
    (hlow : QUtf8.isLowSurrogate low = true)
    (h : isNonCharacter (QUtf8.surrogateToUcs4 c low) = true) (rest out : QString) :
  octets false ((encodedUtf8 c (low :: rest)).1.flatMap encodeByte ++ out)
    ≠ octets literal (c :: low :: rest)
  := by
  obtain ⟨b, bytes, hb, hbytes⟩ := QUtf8.toUtf8_pair hhigh hlow
  have hc := ne_percent (QUtf8.le_of_isHighSurrogate hhigh)
  intro heq
  rw [encodedUtf8_of_pair (hbytes rest) hhigh, h, if_pos rfl, octets_encodeBytes,
    @octets_char literal c (low :: rest) (b :: bytes) (.inl hc) 1 (hbytes rest)] at heq
  have hhead : (0xe0 : UInt8) ||| (c >>> UInt16.ofNat 12).toUInt8 = b :=
    (List.cons.inj heq).1
  have hrange := (QUtf8.isHighSurrogate_iff c).mp hhigh
  rw [QUtf8.shiftRight_toUInt8 c 12 (by decide), show c.toNat / 2 ^ 12 = 13 by omega] at hhead
  subst hhead
  exact absurd hb (by decide)

theorem turn_copy (hc : 0x80 ≤ c) (h : encoding.EncodeUnicode = false) (tail : QString) :
  turn table encoding retryBadEncoding c tail = .copy
  := by
  have hnot : ¬ c < 0x80 := UInt16.not_lt.mpr hc
  rw [turn, if_neg, if_neg (ne_percent hc), if_pos hc, h]
  · rfl
  · rw [Bool.and_eq_true, Bool.and_eq_true, decide_eq_true_eq, decide_eq_true_eq]
    exact fun h => hnot h.1.2

/-- The characters that a turn reads, together with the second half of a pair that is copied, are
written with their octets, unless the first half of a noncharacter is encoded. -/
theorem recodeText_step (htable : table.Sound)
    (hvalid : turn table encoding retryBadEncoding c tail ≠ .invalid)
    (hpaired : QUtf8.paired (c :: tail) = true) :
  (∃ written rest, rest.length ≤ tail.length
      ∧ recodeText table encoding retryBadEncoding (c :: tail)
        = (recodeText table encoding retryBadEncoding rest).map (written ++ ·)
      ∧ Faithful encoding retryBadEncoding (c :: tail) written rest)
    ∨ encoding.EncodeUnicode = true ∧ supplementaryNonCharacter (c :: tail) = true
      ∧ ∀ text, recodeText table encoding retryBadEncoding (c :: tail) = some text →
        octets false text ≠ octets retryBadEncoding (c :: tail)
  := by
  have hspec := @turn_spec table encoding retryBadEncoding htable.percent c tail
  have htext := recodeText_cons hvalid
  have hdrop : ∀ k, (tail.drop k).length ≤ tail.length := by
    intro k
    rw [List.length_drop]
    exact Nat.sub_le _ _
  generalize ht : turn table encoding retryBadEncoding c tail = t at *
  cases t with
  | invalid => exact absurd rfl hvalid
  | copy =>
    left
    obtain ⟨hc, hrange⟩ := hspec
    cases hhigh : QUtf8.isHighSurrogate c with
    | false =>
      exact ⟨[c], tail, Nat.le_refl _, htext,
        faithful_copy hc (QUtf8.not_isSurrogate_of_paired hpaired hhigh) tail⟩
    | true =>
      obtain ⟨low, rest, rfl, hlow⟩ := QUtf8.low_of_paired hpaired hhigh
      have hunicode : encoding.EncodeUnicode = false := by
        rcases hrange with ⟨-, hascii, -⟩ | ⟨-, h⟩
        · exact absurd (QUtf8.le_of_isHighSurrogate hhigh) (UInt16.not_le.mpr hascii)
        · exact h
      have hnext : turn table encoding retryBadEncoding low rest = .copy :=
        turn_copy (QUtf8.le_of_isLowSurrogate hlow) hunicode rest
      refine ⟨[c, low], rest, Nat.le_succ _, ?_, faithful_pair hhigh hlow hunicode rest⟩
      rw [htext]
      change (recodeText table encoding retryBadEncoding (low :: rest)).map _ = _
      rw [recodeText_cons (by rw [hnext]; exact Turn.noConfusion), hnext, Option.map_map]
      rfl
  | percent =>
    left
    obtain ⟨rfl, rfl⟩ := hspec
    exact ⟨[0x25, 0x32, 0x35], tail, Nat.le_refl _, htext,
      faithful_encode_ascii (by decide) (.inr rfl) tail⟩
  | decodeUtf8 units charsNeeded =>
    left
    obtain ⟨rfl, rfl, -, decoded, hdecoded, hhigh, hchar⟩ := hspec
    exact ⟨units, tail.drop (3 * charsNeeded - 1), hdrop _, htext,
      faithful_decodeUtf8 hdecoded hhigh hchar⟩
  | encodeUtf8 =>
    obtain ⟨hc, hunicode⟩ := hspec
    cases hhigh : QUtf8.isHighSurrogate c with
    | false =>
      left
      obtain ⟨hrest, hfaithful⟩ := faithful_encodeUtf8_single hc
        (QUtf8.not_isSurrogate_of_paired hpaired hhigh) tail
      refine ⟨_, tail, Nat.le_refl _, ?_, hfaithful⟩
      rw [htext]
      dsimp only [Turn.more]
      rw [hrest, Nat.sub_self]
      rfl
    | true =>
      obtain ⟨low, rest, rfl, hlow⟩ := QUtf8.low_of_paired hpaired hhigh
      have hrest := encodedUtf8_rest_pair hhigh hlow rest
      dsimp only [Turn.more] at htext
      rw [hrest, List.length_cons, Nat.add_sub_cancel_left] at htext
      cases hnon : isNonCharacter (QUtf8.surrogateToUcs4 c low) with
      | false =>
        left
        exact ⟨_, rest, Nat.le_succ _, htext,
          faithful_encodeUtf8_pair hhigh hlow hnon rest⟩
      | true =>
        right
        refine ⟨hunicode, ?_, ?_⟩
        · rw [supplementaryNonCharacter, hhigh, hlow, hnon]
          rfl
        · intro text hsome
          rw [htext, Option.map_eq_some_iff] at hsome
          obtain ⟨out, -, rfl⟩ := hsome
          exact encodeUtf8_nonCharacter hhigh hlow hnon rest out
  | leaveEncoded =>
    left
    obtain ⟨rfl, rfl, decoded, hdecoded, -⟩ := hspec
    refine ⟨_, tail.drop 2, hdrop 2, htext, faithful_triplet hdecoded fun out => ?_⟩
    obtain ⟨c1, c2, rest, rfl, hc1, hc2, -⟩ := decodePercentEncoding_some hdecoded
    have hupper := decodePercentEncoding_toUpperHex hc1 hc2 out
    exact octets_triplet (hupper.trans hdecoded)
  | decode decoded =>
    left
    obtain ⟨rfl, rfl, hdecoded, hascii, -, haction⟩ := hspec
    refine ⟨_, tail.drop 2, hdrop 2, htext, faithful_triplet hdecoded fun out => ?_⟩
    have hoctet : decoded.toUInt16 < 0x80 ∧ decoded.toUInt16.toUInt8 = decoded := by
      rw [UInt16.lt_iff_toNat_lt, UInt8.toNat_toUInt16, UInt8.toUInt8_toUInt16]
      exact ⟨UInt8.lt_iff_toNat_lt.mp (UInt8.not_le.mp hascii), rfl⟩
    have hc : decoded.toUInt16 ≠ percent := by
      intro h
      rw [h, htable.percent] at haction
      cases haction
    have hout := @octets_ascii false decoded.toUInt16 hoctet.1 (.inl hc) out
    rw [hoctet.2] at hout
    exact hout
  | encode =>
    left
    obtain ⟨hc, hascii, -⟩ := hspec
    exact ⟨_, tail, Nat.le_refl _, htext,
      faithful_encode_ascii (UInt16.not_le.mp hascii) (.inl hc) tail⟩

/-! ### Octets -/

theorem turn_valid (h : recodeText table encoding retryBadEncoding (c :: tail) = some text) :
  turn table encoding retryBadEncoding c tail ≠ .invalid
  := by
  intro hinvalid
  rw [recodeText_invalid hinvalid] at h
  cases h

/-- A pass preserves the octets unless it encodes a noncharacter that is a pair of surrogates. -/
theorem octets_recodeText (htable : table.Sound)
    (h : recodeText table encoding retryBadEncoding input = some text)
    (hpaired : QUtf8.paired input = true) :
  octets false text = octets retryBadEncoding input
    ↔ (encoding.EncodeUnicode = true → supplementaryNonCharacter input = false)
  := by
  induction hn : input.length using Nat.strong_induction_on generalizing input text with
  | h n ih =>
    cases input with
    | nil =>
      rw [recodeText] at h
      cases h
      rw [octets, octets]
      exact ⟨fun _ _ => rfl, fun _ => rfl⟩
    | cons c tail =>
      rcases recodeText_step htable (turn_valid h) hpaired with
        ⟨written, rest, hlength, htext, hfaithful⟩ | ⟨hunicode, hlost, hdiffers⟩
      · rw [htext, Option.map_eq_some_iff] at h
        obtain ⟨out, hout, rfl⟩ := h
        have hrest := ih rest.length (by rw [← hn, List.length_cons]; omega) hout
          (hfaithful.paired hpaired) rfl
        obtain ⟨bytes, hinput, hwritten⟩ := hfaithful.octets
        rw [hinput, hwritten, List.append_cancel_left_eq, hrest]
        apply forall_congr'
        intro hunicode
        rw [hfaithful.supplementary hunicode]
      · constructor
        · intro heq
          exact absurd heq (hdiffers text h)
        · intro hnone
          rw [hnone hunicode] at hlost
          cases hlost

/-- The first pass succeeds where the encoding is valid. -/
theorem recodeText_isSome (htable : table.Sound) (encoding : Encoding) (input : QString) :
  (recodeText table encoding false input).isSome = valid input
  := by
  induction input using recodeText.induct table encoding false with
  | case1 =>
    rw [recodeText]
    rfl
  | case2 c tail hinvalid =>
    have hspec := @turn_spec table encoding false htable.percent c tail
    rw [hinvalid] at hspec
    obtain ⟨rfl, -, hnone⟩ := hspec
    rw [recodeText_invalid hinvalid, valid, hnone]
    rfl
  | case3 c tail hvalid ih =>
    rw [recodeText_cons hvalid, Option.isSome_map, ih]
    have hspec := @turn_spec table encoding false htable.percent c tail
    generalize turn table encoding false c tail = t at *
    cases t with
    | invalid => exact absurd rfl hvalid
    | copy =>
      rw [valid, decide_eq_true hspec.1]
      rfl
    | percent => cases hspec.2
    | decodeUtf8 units n =>
      obtain ⟨rfl, -, -, decoded, hdecoded, hhigh, hchar⟩ := hspec
      obtain ⟨hread, -, htwo, -, -, -⟩ := fromUtf8_some hhigh hchar
      obtain ⟨-, hlength, -⟩ := QUtf8.fromUtf8_char hread
      obtain ⟨-, -, -, hpeeked⟩ := peeked (show n - 1 ≤ _ by omega)
        (QUtf8.fromUtf8_octets hread).1
      rw [(triplet_rest hdecoded).2.2, hpeeked, List.drop_drop]
      congr 2
      dsimp only [Turn.more]
      omega
    | encodeUtf8 =>
      obtain ⟨hc, -⟩ := hspec
      rw [valid, decide_eq_true (ne_percent hc), Bool.true_or, Bool.true_and]
      dsimp only [Turn.more]
      rcases encodedUtf8_rest c tail with hrest | ⟨low, rest, rfl, hlow, hrest⟩
      · rw [hrest, Nat.sub_self]
        rfl
      · rw [hrest, List.length_cons, Nat.add_sub_cancel_left, valid,
          decide_eq_true (ne_percent (QUtf8.le_of_isLowSurrogate hlow))]
        rfl
    | leaveEncoded =>
      obtain ⟨rfl, -, decoded, hdecoded, -⟩ := hspec
      exact (triplet_rest hdecoded).2.2.symm
    | decode decoded =>
      obtain ⟨rfl, -, hdecoded, -⟩ := hspec
      exact (triplet_rest hdecoded).2.2.symm
    | encode =>
      rw [valid, decide_eq_true hspec.1]
      rfl

/-! ### Recoding again -/

/-- A text that a pass leaves as it is. -/
inductive Stable (table : ActionTable) (encoding : Encoding) : QString → Prop where
  | nil : Stable table encoding []
  | copy {c : UInt16} {tail : QString} (h_turn : turn table encoding false c tail = .copy)
    (h_tail : Stable table encoding tail) : Stable table encoding (c :: tail)
  | leave {c1 c2 : UInt16} {rest : QString}
    (h_turn : turn table encoding false percent (c1 :: c2 :: rest) = .leaveEncoded)
    (h_upper : isUpperHex c1 = true ∧ isUpperHex c2 = true)
    (h_rest : Stable table encoding rest) : Stable table encoding (percent :: c1 :: c2 :: rest)

theorem Stable.recodeLoop (htable : table.Sound) (h : Stable table encoding text) (origSize : ℤ)
    (processed : QString) :
  QUrlRecode.recodeLoop table encoding false origSize processed none text = .ok none
  := by
  induction h generalizing processed with
  | nil => rw [QUrlRecode.recodeLoop]
  | copy hturn htail ih => rw [recodeLoop_none_copy hturn, ih]
  | leave hturn hupper hrest ih =>
    rw [recodeLoop_none_leave htable hturn hupper]
    exact ih _

/-- A stable text is not changed. -/
theorem Stable.recode (htable : table.Sound) (h : Stable table encoding text) (origSize : ℤ) :
  QUrlRecode.recode table encoding origSize text = .ok none
  := by
  rw [QUrlRecode.recode, h.recodeLoop htable]
  rfl

theorem Stable.valid (htable : table.Sound) (h : Stable table encoding text) :
  QUrlRecode.valid text = true
  := by
  induction h with
  | nil => rfl
  | @copy c tail hturn htail ih =>
    have hspec := @turn_spec table encoding false htable.percent c tail
    rw [hturn] at hspec
    rw [QUrlRecode.valid, decide_eq_true hspec.1, ih]
    rfl
  | @leave c1 c2 rest hturn hupper hrest ih =>
    have hspec := @turn_spec table encoding false htable.percent percent (c1 :: c2 :: rest)
    rw [hturn] at hspec
    obtain ⟨-, -, decoded, hdecoded, -⟩ := hspec
    rw [(triplet_rest hdecoded).2.2]
    exact ih

theorem turn_triplet (htable : table.Sound) (h : decodePercentEncoding tail = some b)
    (hb : 0x80 ≤ b ∧ (encoding.EncodeUnicode = false → fromUtf8 b (tail.drop 2) = none)
      ∨ ¬ 0x80 ≤ b ∧ ¬ (0x20 ≤ b ∧ table.action b.toUInt16 = .DecodeCharacter)) :
  turn table encoding false percent tail = .leaveEncoded
  := by
  have hspec := @turn_spec table encoding false htable.percent percent tail
  generalize turn table encoding false percent tail = t at *
  cases t with
  | leaveEncoded => rfl
  | invalid =>
    obtain ⟨-, -, hnone⟩ := hspec
    rw [h] at hnone
    cases hnone
  | copy => exact absurd rfl hspec.1
  | percent => cases hspec.2
  | decodeUtf8 units n =>
    obtain ⟨-, -, hunicode, decoded, hdecoded, hhigh, hchar⟩ := hspec
    rw [h] at hdecoded
    cases hdecoded
    rcases hb with ⟨-, hnone⟩ | ⟨hlow, -⟩
    · rw [hnone hunicode] at hchar
      cases hchar
    · exact absurd hhigh hlow
  | encodeUtf8 => exact absurd hspec.1 (by decide)
  | decode decoded =>
    obtain ⟨-, -, hdecoded, hlow, haction⟩ := hspec
    rw [h] at hdecoded
    cases hdecoded
    rcases hb with ⟨hhigh, -⟩ | ⟨-, hleave⟩
    · exact absurd hhigh hlow
    · exact absurd haction hleave
  | encode => exact absurd rfl hspec.1

theorem stable_encodeByte (htable : table.Sound) (hb : 0x80 ≤ b ∧ encoding.EncodeUnicode = true
      ∨ ¬ 0x80 ≤ b ∧ ¬ (0x20 ≤ b ∧ table.action b.toUInt16 = .DecodeCharacter))
    (h : Stable table encoding out) :
  Stable table encoding (encodeByte b ++ out)
  := by
  apply Stable.leave _ (encoded_octet b).2.1 h
  apply turn_triplet htable (decodePercentEncoding_encodeByte b out)
  rcases hb with ⟨hhigh, hunicode⟩ | hlow
  · refine .inl ⟨hhigh, fun hnot => ?_⟩
    rw [hunicode] at hnot
    cases hnot
  · exact .inr hlow

theorem stable_encodeBytes (htable : table.Sound) (hunicode : encoding.EncodeUnicode = true)
    (hbytes : ∀ b ∈ bytes, 0x80 ≤ b) (h : Stable table encoding out) :
  Stable table encoding (bytes.flatMap encodeByte ++ out)
  := by
  induction bytes with
  | nil => exact h
  | cons b bytes ih =>
    rw [List.forall_mem_cons] at hbytes
    rw [List.flatMap_cons, List.append_assoc]
    exact stable_encodeByte htable (.inl ⟨hbytes.1, hunicode⟩) (ih hbytes.2)

theorem encodedUtf8_high (hc : 0x80 ≤ c) (tail : QString) :
  ∀ b ∈ (encodedUtf8 c tail).1, 0x80 ≤ b
  := by
  have hbad : ∀ b ∈ badOctets c, 0x80 ≤ b := by
    have hthree : ∀ x : UInt8, 0x80 ≤ (0xe0 : UInt8) ||| x :=
      fun x => (QUtf8.built_octet x).2.2.2.1
    have htail : ∀ x : UInt8, 0x80 ≤ (0x80 : UInt8) ||| x :=
      fun x => (QUtf8.built_octet x).2.2.2.2.2
    unfold badOctets
    rw [List.forall_mem_cons, List.forall_mem_cons, List.forall_mem_singleton]
    exact ⟨hthree _, htail _, htail _⟩
  unfold encodedUtf8 toUtf8
  cases hoctets : QUtf8.toUtf8 c tail with
  | none => exact hbad
  | some octets =>
    have hhigh : ∀ b ∈ octets.1, 0x80 ≤ b :=
      fun b hb => QUtf8.toUtf8_high (UInt16.not_lt.mpr hc) hoctets hb
    dsimp only
    generalize isNonCharacter _ = non
    cases non with
    | true => exact hbad
    | false => exact hhigh

/-- A triplet of an octet from 0x80 on is written only for the same one, where such octets are
decoded. -/
theorem recodeText_triplet (htable : table.Sound) (hunicode : encoding.EncodeUnicode = false)
    (hb : 0x80 ≤ b) (hout : decodePercentEncoding out = some b)
    (h : recodeText table encoding false input = some (percent :: out)) :
  ∃ tail, input = percent :: tail ∧ decodePercentEncoding tail = some b
    ∧ recodeText table encoding false (tail.drop 2) = some (out.drop 2)
  := by
  cases input with
  | nil =>
    rw [recodeText] at h
    cases h
  | cons c tail =>
    have hvalid := turn_valid h
    have hspec := @turn_spec table encoding false htable.percent c tail
    rw [recodeText_cons hvalid, Option.map_eq_some_iff] at h
    obtain ⟨rest, hrest, htext⟩ := h
    generalize turn table encoding false c tail = t at *
    cases t with
    | invalid => exact absurd rfl hvalid
    | copy => exact absurd (List.cons.inj htext).1 hspec.1
    | percent => cases hspec.2
    | decodeUtf8 units n =>
      obtain ⟨-, -, -, decoded, hdecoded, hhigh, hchar⟩ := hspec
      obtain ⟨hread, -⟩ := fromUtf8_some hhigh hchar
      obtain ⟨u, us, rfl, hu, -⟩ := QUtf8.toUtf8_fromUtf8 hhigh hread
      exact absurd (List.cons.inj htext).1 (ne_percent (UInt16.not_lt.mp hu))
    | encodeUtf8 =>
      obtain ⟨-, hencode⟩ := hspec
      rw [hunicode] at hencode
      cases hencode
    | leaveEncoded =>
      obtain ⟨rfl, -, decoded, hdecoded, -⟩ := hspec
      obtain ⟨c1, c2, rest', rfl, hc1, hc2, -⟩ := decodePercentEncoding_some hdecoded
      have htail : toUpperHex c1 :: toUpperHex c2 :: rest = out := (List.cons.inj htext).2
      subst htail
      rw [decodePercentEncoding_toUpperHex hc1 hc2] at hout
      exact ⟨_, rfl, hout, hrest⟩
    | decode decoded =>
      obtain ⟨-, -, -, -, -, haction⟩ := hspec
      rw [(List.cons.inj htext).1, htable.percent] at haction
      cases haction
    | encode =>
      obtain ⟨-, hascii, -⟩ := hspec
      have htail : encodeNibble (c.toUInt8 >>> 4) :: encodeNibble (c.toUInt8 &&& 0xf) :: rest
          = out := (List.cons.inj htext).2
      subst htail
      rw [decodePercentEncoding_encodeByte] at hout
      cases hout
      rw [UInt8.le_iff_toNat_le, UInt16.toNat_toUInt8] at hb
      rw [UInt16.le_iff_toNat_le] at hascii
      change 0x80 ≤ _ at hb
      change ¬ 0x80 ≤ _ at hascii
      omega

/-- The continuation octets that follow in a recoded text follow in the input. -/
theorem recodeText_peeked (htable : table.Sound) (hunicode : encoding.EncodeUnicode = false)
    (h : recodeText table encoding false input = some out) {k : ℕ}
    (hk : k ≤ (peekBytes out).length)
    (hout : ∀ b ∈ (peekBytes out).take k, QUtf8.isContinuationByte b = true) :
  (peekBytes input).take k = (peekBytes out).take k
  := by
  have hhigh : ∀ b : UInt8, QUtf8.isContinuationByte b = true → 0x80 ≤ b :=
    fun b => (encoded_octet b).2.2
  induction k generalizing input out with
  | zero => rfl
  | succ k ih =>
    cases hpeek : peekBytes out with
    | nil =>
      rw [hpeek] at hk
      cases hk
    | cons b bs =>
      rw [hpeek] at hout hk
      rw [List.take_succ_cons, List.forall_mem_cons] at hout
      obtain ⟨c1, c2, rest, rfl, hdecode, rfl⟩ := peekBytes_continuation hpeek hout.1
      obtain ⟨tail, rfl, htail, hrest⟩ :=
        recodeText_triplet htable hunicode (hhigh b hout.1) hdecode h
      obtain ⟨c1', c2', rest', rfl, -⟩ := decodePercentEncoding_some htail
      have hhead : decodePercentEncoding [c1', c2'] = some b := htail
      have hpeeked : (peekBytes rest').take k = (peekBytes rest).take k :=
        ih hrest (Nat.le_of_succ_le_succ hk) hout.2
      rw [peekBytes, if_pos rfl, hhead, List.take_succ_cons, List.take_succ_cons, hpeeked]
      rfl

/-- An octet that no character starts with in the input starts none in the recoded text. -/
theorem fromUtf8_recoded (htable : table.Sound) (hunicode : encoding.EncodeUnicode = false)
    (h : recodeText table encoding false input = some out) (hb : 0x80 ≤ b)
    (hnone : fromUtf8 b input = none) :
  fromUtf8 b out = none
  := by
  cases hread : fromUtf8 b out with
  | none => rfl
  | some char =>
    obtain ⟨units, n⟩ := char
    obtain ⟨hchar, hnon, -⟩ := fromUtf8_some hb hread
    obtain ⟨hoctets, hlocal⟩ := QUtf8.fromUtf8_octets hchar
    obtain ⟨-, hlength, -⟩ := QUtf8.fromUtf8_char hchar
    have hinput := hlocal _
      (recodeText_peeked htable hunicode h (show n - 1 ≤ _ by omega) hoctets)
    rw [fromUtf8, hinput] at hnone
    dsimp only at hnone
    rw [hnon] at hnone
    cases hnone

/-- What a pass writes is stable. -/
theorem stable_recodeText (htable : table.Sound)
    (h : recodeText table encoding retryBadEncoding input = some text) :
  Stable table encoding text
  := by
  induction input using recodeText.induct table encoding retryBadEncoding generalizing text with
  | case1 =>
    rw [recodeText] at h
    cases h
    exact .nil
  | case2 c tail hinvalid => exact absurd hinvalid (turn_valid h)
  | case3 c tail hvalid ih =>
    have hspec := @turn_spec table encoding retryBadEncoding htable.percent c tail
    rw [recodeText_cons hvalid, Option.map_eq_some_iff] at h
    obtain ⟨out, hout, rfl⟩ := h
    have hstable := ih hout
    generalize turn table encoding retryBadEncoding c tail = t at *
    cases t with
    | invalid => exact absurd rfl hvalid
    | copy =>
      obtain ⟨-, ⟨hspace, hascii, haction⟩ | ⟨hhigh, hunicode⟩⟩ := hspec
      · exact .copy (turn_ascii hspace hascii haction out) hstable
      · exact .copy (turn_copy hhigh hunicode out) hstable
    | percent =>
      have hleave : ¬ (0x20 ≤ (0x25 : UInt8)
          ∧ table.action (0x25 : UInt8).toUInt16 = .DecodeCharacter) := by
        rintro ⟨-, haction⟩
        have hpercent := htable.percent
        rw [show percent = (0x25 : UInt8).toUInt16 from rfl, haction] at hpercent
        cases hpercent
      exact stable_encodeByte htable (.inr ⟨by decide, hleave⟩) hstable
    | decodeUtf8 units n =>
      obtain ⟨-, -, hunicode, decoded, hdecoded, hhigh, hchar⟩ := hspec
      obtain ⟨hread, -⟩ := fromUtf8_some hhigh hchar
      obtain ⟨u, us, rfl, hu, hwrite⟩ := QUtf8.toUtf8_fromUtf8 hhigh hread
      have hcopy := @turn_copy u table encoding false (UInt16.not_lt.mp hu) hunicode
      have hoctets := hwrite []
      rw [List.append_nil] at hoctets
      rcases QUtf8.toUtf8_rest hoctets with ⟨rfl, -⟩ | ⟨low, rfl, -, hlow, -⟩
      · exact .copy (hcopy out) hstable
      · have hcopy' := @turn_copy low table encoding false (QUtf8.le_of_isLowSurrogate hlow)
          hunicode
        exact .copy (hcopy _) (.copy (hcopy' out) hstable)
    | encodeUtf8 =>
      exact stable_encodeBytes htable hspec.2 (encodedUtf8_high hspec.1 tail) hstable
    | leaveEncoded =>
      obtain ⟨-, rfl, decoded, hdecoded, haction⟩ := hspec
      obtain ⟨c1, c2, rest, rfl, hc1, hc2, -⟩ := decodePercentEncoding_some hdecoded
      have hupper := decodePercentEncoding_toUpperHex hc1 hc2 out
      apply Stable.leave _ ⟨isUpperHex_toUpperHex hc1, isUpperHex_toUpperHex hc2⟩ hstable
      apply turn_triplet htable (hupper.trans hdecoded)
      rcases haction with ⟨hhigh, hnone⟩ | hlow
      · exact .inl ⟨hhigh, fun hunicode =>
          fromUtf8_recoded htable hunicode hout hhigh (hnone hunicode)⟩
      · exact .inr hlow
    | decode decoded =>
      obtain ⟨-, -, -, hascii, hspace, haction⟩ := hspec
      have hcopy := @turn_ascii table encoding false decoded.toUInt16 (by
        rw [UInt16.le_iff_toNat_le, UInt8.toNat_toUInt16]
        exact UInt8.le_iff_toNat_le.mp hspace) (by
        rw [UInt16.lt_iff_toNat_lt, UInt8.toNat_toUInt16]
        exact UInt8.lt_iff_toNat_lt.mp (UInt8.not_le.mp hascii)) (by
        rw [haction]
        exact EncodingAction.noConfusion)
      exact .copy (hcopy out) hstable
    | encode =>
      obtain ⟨-, hascii, haction⟩ := hspec
      rw [UInt16.not_le, UInt16.lt_iff_toNat_lt] at hascii
      have hoctet : c.toUInt8.toNat = c.toNat := by
        rw [UInt16.toNat_toUInt8]
        exact Nat.mod_eq_of_lt (Nat.lt_trans hascii (by decide))
      have hunit : c.toUInt8.toUInt16 = c := by
        rw [← UInt16.toNat_inj, UInt8.toNat_toUInt16, hoctet]
      apply stable_encodeByte htable (.inr ⟨?_, ?_⟩) hstable
      · rw [UInt8.not_le, UInt8.lt_iff_toNat_lt, hoctet]
        exact hascii
      · rintro ⟨hspace, hdecode⟩
        rw [UInt8.le_iff_toNat_le, hoctet] at hspace
        rw [hunit, haction (UInt16.le_iff_toNat_le.mpr hspace)] at hdecode
        cases hdecode

/-! ### Tables -/

/-- A modification of a table that leaves '%' and the hexadecimal digits alone, as the callers of
`qt_urlRecode` do. -/
structure Modification.Plain (m : Modification) : Prop where
  space : 0x20 ≤ m.character
  ascii : m.character < 0x80
  percent : m.character.toUInt16 ≠ percent
  hex : isHex m.character.toUInt16 = false

theorem ActionTable.action_set (table : ActionTable) {m : Modification} (hm : 0x20 ≤ m.character)
    (hc : 0x20 ≤ c) (hne : m.character.toUInt16 ≠ c) :
  ActionTable.action (table.set (m.character.toNat - 0x20) m.action) c = table.action c
  := by
  rw [ne_eq, ← UInt16.toNat_inj, UInt8.toNat_toUInt16] at hne
  rw [UInt8.le_iff_toNat_le] at hm
  rw [UInt16.le_iff_toNat_le] at hc
  change 0x20 ≤ _ at hm
  change 0x20 ≤ _ at hc
  rw [ActionTable.action, ActionTable.action, List.getD_eq_getElem?_getD,
    List.getD_eq_getElem?_getD, List.getElem?_set_ne (by omega)]

theorem action_modified (table : ActionTable) (h : ∀ m ∈ tableModifications, m.Plain)
    (hc : c = percent ∨ isHex c = true) :
  ActionTable.action (tableModifications.foldl
    (fun table p => table.set (p.character.toNat - 0x20) p.action) table) c = table.action c
  := by
  have hspace : 0x20 ≤ c := by
    rcases hc with rfl | hhex
    · decide
    · exact (isHex_bounds hhex).1
  induction tableModifications generalizing table with
  | nil => rfl
  | cons m tableModifications ih =>
    rw [List.forall_mem_cons] at h
    obtain ⟨hm, hrest⟩ := h
    have hne : m.character.toUInt16 ≠ c := by
      rintro rfl
      rcases hc with hpercent | hhex
      · exact hm.percent hpercent
      · rw [hm.hex] at hhex
        cases hhex
    rw [List.foldl_cons, ih _ hrest, ActionTable.action_set table hm.space hspace hne]

/-- The tables that `qt_urlRecode` builds. -/
theorem sound_actionTable (encoding : Encoding) (h : ∀ m ∈ tableModifications, m.Plain) :
  (actionTable encoding tableModifications).Sound
  := by
  have hbase : ∀ DecodeReserved EncodeSpaces : Bool,
      let table := if DecodeReserved then maskTable defaultActionTable else defaultActionTable
      let table := if EncodeSpaces then table.set 0 .EncodeCharacter else table
      ActionTable.action table percent = .EncodeCharacter ∧
        ∀ n : Fin 0x80, isHex (UInt16.ofNat n.val) = true →
          ActionTable.action table (UInt16.ofNat n.val) = .DecodeCharacter := by
    decide
  obtain ⟨hpercent, hhex⟩ := hbase encoding.DecodeReserved encoding.EncodeSpaces
  constructor
  · rw [actionTable, action_modified _ h (.inl rfl)]
    exact hpercent
  · intro c hc
    have hdigit := hhex ⟨c.toNat, UInt16.lt_iff_toNat_lt.mp (isHex_bounds hc).2.1⟩
    rw [UInt16.ofNat_toNat] at hdigit
    rw [actionTable, action_modified _ h (.inr hc), hdigit hc]
    exact EncodingAction.noConfusion

/-! ### The whole of recoding -/

theorem stable_recodedText (htable : table.Sound) (encoding : Encoding) (input : QString) :
  Stable table encoding (recodedText table encoding input)
  := by
  unfold recodedText
  cases hfirst : recodeText table encoding false input with
  | some text => exact stable_recodeText htable hfirst
  | none =>
    obtain ⟨text, hsecond⟩ := Option.isSome_iff_exists.mp
      (@recodeText_retry table encoding htable input)
    rw [hsecond]
    exact stable_recodeText htable hsecond

theorem denoted_recodedText (htable : table.Sound) (hpaired : QUtf8.paired input = true) :
  denoted (recodedText table encoding input) = denoted input
    ↔ (encoding.EncodeUnicode = true → supplementaryNonCharacter input = false)
  := by
  have hvalid := recodeText_isSome htable encoding input
  rw [denoted, (stable_recodedText htable encoding input).valid htable, denoted, ← hvalid]
  unfold recodedText
  cases hfirst : recodeText table encoding false input with
  | some text => exact octets_recodeText htable hfirst hpaired
  | none =>
    obtain ⟨text, hsecond⟩ := Option.isSome_iff_exists.mp
      (@recodeText_retry table encoding htable input)
    rw [hsecond]
    exact octets_recodeText htable hsecond hpaired

/-- Recoding ends with every write in the space that was reserved, it preserves the octets, and
recoding its result changes nothing. -/
def PreservesMeaning (encoding : Encoding) (origSize : ℤ) (input : QString)
    (tableModifications : List Modification) : Prop :=
  ∃ result, qt_urlRecode encoding origSize input tableModifications = .ok result
    ∧ denoted (result.getD input) = denoted input
    ∧ ∀ size, qt_urlRecode encoding size (result.getD input) tableModifications = .ok none

/-- Recoding preserves the meaning of a text unless it encodes a noncharacter that is a pair of
surrogates. -/
theorem qt_urlRecode_preservesMeaning (encoding : Encoding) {origSize : ℤ} {input : QString}
    {tableModifications : List Modification} (h_plain : ∀ m ∈ tableModifications, m.Plain)
    (h_fits : Fits origSize input.length) (h_paired : QUtf8.paired input = true) :
  PreservesMeaning encoding origSize input tableModifications
    ↔ (encoding.EncodeUnicode = true → supplementaryNonCharacter input = false)
  := by
  have h_table := sound_actionTable encoding h_plain
  obtain ⟨result, h_ok, h_text⟩ := recode_text h_table encoding h_fits
  rw [← denoted_recodedText h_table h_paired, ← h_text]
  constructor
  · rintro ⟨result', h_ok', h_denoted, -⟩
    rw [qt_urlRecode, h_ok] at h_ok'
    cases h_ok'
    exact h_denoted
  · intro h_denoted
    refine ⟨result, h_ok, h_denoted, fun size => ?_⟩
    rw [h_text]
    exact (stable_recodedText h_table encoding input).recode h_table size

/-- `%7e/%c3é` with `EncodeUnicode`, where a caller encodes the slash. -/
theorem qt_urlRecode_preservesMeaning_slash :
  PreservesMeaning ⟨true, true, false⟩ 5
    [0x25, 0x37, 0x65, 0x2f, 0x25, 0x63, 0x33, 0xe9] [⟨0x2f, .EncodeCharacter⟩]
  := by
  apply (qt_urlRecode_preservesMeaning ⟨true, true, false⟩ _ _ _).mpr
  · decide
  · rw [List.forall_mem_singleton]
    exact ⟨by decide, by decide, by decide, by decide⟩
  · exact ⟨by decide, by decide⟩
  · decide

/-- Of the noncharacter U+1FFFE, only the first half is encoded. -/
theorem qt_urlRecode_loses_half :
  QUtf8.paired [0xd83f, 0xdffe] = true
    ∧ qt_urlRecode ⟨false, true, false⟩ 0 [0xd83f, 0xdffe] []
      = .ok (some [0x25, 0x45, 0x44, 0x25, 0x41, 0x30, 0x25, 0x42, 0x46])
    ∧ ¬ PreservesMeaning ⟨false, true, false⟩ 0 [0xd83f, 0xdffe] []
  := by
  have h_turn : turn (actionTable ⟨false, true, false⟩ []) ⟨false, true, false⟩ false 0xd83f
      [0xdffe] = .encodeUtf8 := by decide
  have h_perform : perform 0 [] 0xd83f [0xdffe] none .encodeUtf8
      = .ok (some ⟨15, 9, [0x25, 0x45, 0x44, 0x25, 0x41, 0x30, 0x25, 0x42, 0x46]⟩, 1) := by decide
  have h_recoded : qt_urlRecode ⟨false, true, false⟩ 0 [0xd83f, 0xdffe] []
      = .ok (some [0x25, 0x45, 0x44, 0x25, 0x41, 0x30, 0x25, 0x42, 0x46]) := by
    rw [qt_urlRecode, recode, recodeLoop, h_turn, h_perform]
    dsimp only [bind, Except.bind, List.drop]
    rw [recodeLoop]
    rfl
  refine ⟨by decide, h_recoded, ?_⟩
  rintro ⟨result, h_ok, h_denoted, -⟩
  rw [h_recoded] at h_ok
  cases h_ok
  have h_octets : (encodedUtf8 0xd83f [0xdffe]).1.flatMap encodeByte ++ []
      = [0x25, 0x45, 0x44, 0x25, 0x41, 0x30, 0x25, 0x42, 0x46] := by decide
  have h_differs : octets false ((encodedUtf8 0xd83f [0xdffe]).1.flatMap encodeByte ++ [])
      ≠ octets false [0xd83f, 0xdffe] :=
    encodeUtf8_nonCharacter (by decide) (by decide) (by decide) [] []
  rw [h_octets] at h_differs
  exact h_differs h_denoted

end QUrlRecode
