import BobUI.Corelib.Text.Utf16Chunks

/-!
# UTF-32 in chunks

Both conversions of `QUtf32` read as machines do that take one symbol at a time: decoding always
detects the order from the first four octets.

* `convertToUnicode_chunks` and `convertFromUnicode_chunks`: successive calls yield what one call
  yields.
* `chunksIndependent_iff`: when this holds of UTF-16, too.
-/

open QStringConverter Transducer
open QUtf16 (endianness_of_detect outcome)

namespace QUtf32

open QUtf8 (appendUcs4 isSurrogate isHighSurrogate isLowSurrogate surrogateToUcs4)

/-! ### Decoding -/

section Decoding

variable {order : Endian} {flags : Flags} {endian e : DataEndianness} {a b c d : UInt8}
  {pending l rest : QByteArray}

/-- The endianness of a first character. -/
def resolve (order : Endian) (endian : DataEndianness) (block : QByteArray) : DataEndianness :=
  if endian = .detectEndianness then detect order block else endian

/-- The character of four octets. -/
def emit (endian : DataEndianness) : QByteArray → QString
  | [a, b, c, d] => appendUcs4 (code endian a b c d)
  | _ => []

/-- The first character, unless it is a byte order mark that is not text. -/
def emitFirst (flags : Flags) (endian : DataEndianness) : QByteArray → QString
  | [a, b, c, d] =>
    if flags.convertInitialBom || code endian a b c d ≠ 0xfeff then
      appendUcs4 (code endian a b c d)
    else []
  | _ => []

/-- The machine that decodes octet after octet. -/
abbrev decoder (order : Endian) (flags : Flags) (endian : DataEndianness) :=
  blockStep 4 (resolve order endian) (emitFirst flags) emit

/-- The first four octets are still to be read, or the order is known. -/
def ReadsAs (flags : Flags) (endian : DataEndianness) (s : Option DataEndianness × QByteArray)
    (t : State UInt8) : Prop :=
  t.flags = flags ∧ t.data = s.2 ∧ s.2.length < 4
    ∧ match s.1 with
      | none => t.headerDone = false ∧ t.endian = .detectEndianness
      | some e => e ≠ .detectEndianness ∧ t.bomDone = true ∧ t.endianness endian = e

theorem decoder_first (h : pending.length < 4) (hl : pending ++ l = a :: b :: c :: d :: rest) :
  transduce (decoder order flags endian) (none, pending) l
    = (emitFirst flags (resolve order endian [a, b, c, d]) [a, b, c, d]
        ++ (transduce (decoder order flags endian)
          (some (resolve order endian [a, b, c, d]), []) rest).1,
      (transduce (decoder order flags endian)
        (some (resolve order endian [a, b, c, d]), []) rest).2)
  := by
  have hblock : [a, b, c, d].length = 4 := rfl
  apply transduce_first hblock h hl

theorem decoder_next (e : DataEndianness) (h : pending.length < 4)
    (hl : pending ++ l = a :: b :: c :: d :: rest) :
  transduce (decoder order flags endian) (some e, pending) l
    = (appendUcs4 (code e a b c d) ++ (transduce (decoder order flags endian) (some e, []) rest).1,
      (transduce (decoder order flags endian) (some e, []) rest).2)
  := by
  have hblock : [a, b, c, d].length = 4 := rfl
  apply transduce_next hblock h hl

/-- Four octets are there, or they are not. -/
theorem short_or_block (l : QByteArray) :
  l.length < 4 ∨ ∃ a b c d rest, l = a :: b :: c :: d :: rest
  := by
  rcases l with _ | ⟨a, _ | ⟨b, _ | ⟨c, _ | ⟨d, rest⟩⟩⟩⟩
  · left
    exact Nat.zero_lt_succ 3
  · left
    exact Nat.lt_of_sub_eq_succ rfl
  · left
    exact Nat.lt_of_sub_eq_succ rfl
  · left
    exact Nat.lt_of_sub_eq_succ rfl
  · right
    use a, b, c, d, rest

theorem decodeTuples_short (h : l.length < 4) (e : DataEndianness) :
  decodeTuples e l = ([], l)
  := by
  unfold decodeTuples
  split
  next =>
    simp only [List.length_cons] at h
    omega
  next => rfl

theorem decodeTuples_length (e : DataEndianness) (l : QByteArray) :
  (decodeTuples e l).2.length < 4
  := by
  induction l using decodeTuples.induct with
  | case1 a b c d rest ih => exact ih
  | case2 l h =>
    rcases short_or_block l with hshort | ⟨a, b, c, d, rest, rfl⟩
    · rwa [decodeTuples_short hshort]
    · exact absurd rfl (h a b c d rest)

/-- Once the order is known, the machine decodes tuples. -/
theorem transduce_tuples (e : DataEndianness) (l : QByteArray) :
  transduce (decoder order flags endian) (some e, []) l
    = ((decodeTuples e l).1, some e, (decodeTuples e l).2)
  := by
  induction l using decodeTuples.induct with
  | case1 a b c d rest ih =>
    rw [decoder_next e (by exact Nat.zero_lt_succ 3) rfl, ih]
    rfl
  | case2 l h =>
    rcases short_or_block l with hshort | ⟨a, b, c, d, rest, rfl⟩
    · rw [transduce_short (by exact hshort), decodeTuples_short hshort]
      rfl
    · exact absurd rfl (h a b c d rest)

variable {t : State UInt8}

theorem finish_eq (h : t.flags.stateless = false) (e : DataEndianness) (out : QString)
    (chars : QByteArray) :
  finish t e out chars
    = (out ++ (decodeTuples e chars).1,
      { t with headerDone := true, endian := e, data := (decodeTuples e chars).2 })
  := by
  rw [finish, h, Bool.false_and, if_neg Bool.false_ne_true]

/-- A call that decodes nothing. -/
theorem convertToUnicode_short (h : (t.data ++ l).length < 4) :
  convertToUnicode order l t endian = ([], { t with data := t.data ++ l })
  := by
  unfold convertToUnicode
  split
  next hdata =>
    rw [hdata] at h
    simp only [List.length_cons] at h
    omega
  next => rfl

/-- A call that decodes. -/
theorem convertToUnicode_block (hstateless : t.flags.stateless = false)
    (h : t.data ++ l = a :: b :: c :: d :: rest) :
  convertToUnicode order l t endian
    = ((if t.bomDone || code (resolve order (t.endianness endian) [a, b, c, d]) a b c d ≠ 0xfeff
        then appendUcs4 (code (resolve order (t.endianness endian) [a, b, c, d]) a b c d) else [])
        ++ (decodeTuples (resolve order (t.endianness endian) [a, b, c, d]) rest).1,
      { t with
        headerDone := true
        endian := resolve order (t.endianness endian) [a, b, c, d]
        data := (decodeTuples (resolve order (t.endianness endian) [a, b, c, d]) rest).2 })
  := by
  rw [convertToUnicode, h]
  dsimp only
  split
  next =>
    rw [finish_eq hstateless]
    rfl
  next hbranch =>
    simp only [Bool.or_eq_true, Bool.not_eq_true', decide_eq_true_iff, not_or, not_not,
      Bool.not_eq_false] at hbranch
    obtain ⟨⟨hdone, hknown⟩, hnil⟩ := hbranch
    rw [hnil, List.nil_append] at h
    rw [finish_eq hstateless, resolve, if_neg hknown, hdone, Bool.true_or, if_pos rfl, h,
      decodeTuples]
    rfl

theorem resolve_ne (order : Endian) (endian : DataEndianness) (block : QByteArray) :
  resolve order endian block ≠ .detectEndianness
  := by
  rw [resolve]
  split
  · rw [detect]
    split
    · exact DataEndianness.noConfusion
    · split
      · exact DataEndianness.noConfusion
      · cases order <;> exact DataEndianness.noConfusion
  · assumption

/-- The state after a call that decodes. -/
theorem readsAs_tuples (hflags : t.flags = flags) (he : e ≠ .detectEndianness)
    (h : endian = .detectEndianness ∨ endian = e) (chars : QByteArray) :
  ReadsAs flags endian (some e, (decodeTuples e chars).2)
    { t with headerDone := true, endian := e, data := (decodeTuples e chars).2 }
  := by
  refine ⟨hflags, rfl, decodeTuples_length e chars, he, rfl, ?_⟩
  rw [State.endianness]
  rcases h with h | h
  · rw [if_pos h]
  · rw [if_neg (by rw [h]; exact he), h]

/-- One call reads as the machine does. -/
theorem convertToUnicode_reads (order : Endian) {s : Option DataEndianness × QByteArray}
    (hstateless : flags.stateless = false) (h : ReadsAs flags endian s t) (l : QByteArray) :
  (convertToUnicode order l t endian).1 = (transduce (decoder order flags endian) s l).1
    ∧ ReadsAs flags endian (transduce (decoder order flags endian) s l).2
      (convertToUnicode order l t endian).2
  := by
  obtain ⟨mode, pending⟩ := s
  obtain ⟨rfl, hdata, hpending, hmode⟩ := h
  dsimp only at hdata hpending hmode
  rcases short_or_block (t.data ++ l) with hshort | ⟨a, b, c, d, rest, hl⟩
  · rw [convertToUnicode_short hshort, hdata, transduce_short (by rwa [← hdata])]
    use rfl, rfl, rfl, by rwa [← hdata]
    cases mode with
    | none => exact hmode
    | some e => exact hmode
  · rw [convertToUnicode_block hstateless hl]
    cases mode with
    | none =>
      obtain ⟨hheader, hendian⟩ := hmode
      have hown : endian = .detectEndianness ∨ endian = resolve order endian [a, b, c, d] := by
        rw [resolve]
        split
        next hdetect => exact .inl hdetect
        next => exact .inr rfl
      rw [decoder_first hpending (by rwa [← hdata]), transduce_tuples,
        endianness_of_detect hendian, State.bomDone, hheader, Bool.false_or]
      use rfl
      apply readsAs_tuples rfl (resolve_ne order endian _) hown
    | some e =>
      obtain ⟨he, hdone, hendian⟩ := hmode
      have hown : endian = .detectEndianness ∨ endian = e := by
        rw [State.endianness] at hendian
        split at hendian
        next hdetect => exact .inl hdetect
        next => exact .inr hendian
      have hresolve : resolve order e [a, b, c, d] = e := if_neg he
      rw [decoder_next e hpending (by rwa [← hdata]), transduce_tuples, hendian, hresolve,
        hdone, Bool.true_or, if_pos rfl]
      use rfl
      apply readsAs_tuples rfl he hown

/-- Successive calls yield what one call yields. -/
theorem convertToUnicode_chunks (hstateless : flags.stateless = false)
    (chunks : List QByteArray) :
  outcome (runCalls (fun t l => convertToUnicode order l t endian) (.new flags) chunks)
    = outcome (convertToUnicode order chunks.flatten (.new flags) endian)
  := by
  have hnew : ReadsAs flags endian (none, []) (.new flags) :=
    ⟨rfl, rfl, Nat.zero_lt_succ 3, rfl, rfl⟩
  have hsimulates : Simulates (decoder order flags endian)
      (fun t l => convertToUnicode order l t endian) (ReadsAs flags endian) := {
    output := fun hrel l => (convertToUnicode_reads order hstateless hrel l).1
    next := fun hrel l => (convertToUnicode_reads order hstateless hrel l).2 }
  obtain ⟨hchunks, -, hpending, -⟩ := hsimulates.runCalls hnew chunks
  obtain ⟨hwhole, -, hdata, -⟩ := convertToUnicode_reads order hstateless hnew
    chunks.flatten
  rw [outcome, outcome, hchunks, hwhole, hpending, hdata]

end Decoding

/-! ### Encoding -/

section Encoding

variable {flags : Flags} {endian : DataEndianness}

/-- The machine that encodes a code unit that no high surrogate waits for. -/
def encodeUnit (flags : Flags) (endian : DataEndianness) (u : UInt16) : QByteArray × QString :=
  if !isSurrogate u.toNat then (octets endian u.toNat, [])
  else if isHighSurrogate u then ([], [u])
  else (octets endian flags.replacement.toNat, [])

/-- The machine that encodes code unit after code unit. -/
def encoder (flags : Flags) (endian : DataEndianness) (waiting : QString) (u : UInt16) :
    QByteArray × QString :=
  match waiting with
  | [ch] =>
    if isLowSurrogate u then (octets endian (surrogateToUcs4 ch u), [])
    else (octets endian flags.replacement.toNat ++ (encodeUnit flags endian u).1,
      (encodeUnit flags endian u).2)
  | _ => encodeUnit flags endian u

/-- A waiting surrogate is decoded as in the code. -/
theorem transduce_waiting (h : flags.stateless = false) (ch : UInt16) (uc : QString) :
  transduce (encoder flags endian) [ch] uc
    = match decodeSurrogate flags ch uc with
      | (none, _) => ([], [ch])
      | (some ucs4, rest) =>
        (octets endian ucs4 ++ (transduce (encoder flags endian) [] rest).1,
          (transduce (encoder flags endian) [] rest).2)
  := by
  cases uc with
  | nil =>
    rw [decodeSurrogate, h, if_neg Bool.false_ne_true]
    rfl
  | cons low uc =>
    rw [decodeSurrogate, transduce, encoder]
    split
    · rfl
    · rw [List.append_assoc]
      rfl

/-- The loop of the code reads as the machine does. -/
theorem encodeUnits_eq (h : flags.stateless = false) (l : QString) :
  encodeUnits flags endian l = transduce (encoder flags endian) [] l
  := by
  generalize hlength : l.length = n
  induction n using Nat.strongRecOn generalizing l with
  | ind n ih =>
    cases l with
    | nil => rw [encodeUnits, transduce]
    | cons ch uc =>
      rw [List.length_cons] at hlength
      have hencoder : encoder flags endian [] ch = encodeUnit flags endian ch := rfl
      rw [encodeUnits, transduce, hencoder, encodeUnit]
      split
      next rest hunit =>
        rw [decodeUnit] at hunit
        split at hunit
        next => cases hunit
        next hsurrogate =>
          split at hunit
          next hhigh =>
            rw [if_neg hsurrogate, if_pos hhigh, transduce_waiting h, hunit]
            rfl
          next => cases hunit
      next ucs4 rest hunit =>
        have hrest := decodeUnit_rest hunit
        rw [ih rest.length (by omega) rest rfl]
        rw [decodeUnit] at hunit
        split at hunit
        next hsingle =>
          cases hunit
          rw [if_pos hsingle]
        next hsurrogate =>
          rw [if_neg hsurrogate]
          split at hunit
          next hhigh =>
            rw [if_pos hhigh, transduce_waiting h, hunit]
            rfl
          next hlow =>
            cases hunit
            rw [if_neg hlow]

/-- No byte order mark is due, and at most a high surrogate waits. -/
def Writes (flags : Flags) (waiting : QString) (t : State UInt16) : Prop :=
  t.flags = flags ∧ t.data = waiting ∧ waiting.length ≤ 1
    ∧ (!t.headerDone && flags.writeBom) = false

/-- The endianness of the octets that are written. -/
def written (order : Endian) (endian : DataEndianness) : DataEndianness :=
  if endian = .detectEndianness then order.host else endian

theorem encodeUnit_length (flags : Flags) (endian : DataEndianness) (u : UInt16) :
  (encodeUnit flags endian u).2.length ≤ 1
  := by
  rw [encodeUnit]
  split
  · exact Nat.zero_le 1
  · split
    · exact Nat.le_refl 1
    · exact Nat.zero_le 1

theorem encoder_length (flags : Flags) (endian : DataEndianness) (waiting : QString)
    (h : waiting.length ≤ 1) (l : QString) :
  (transduce (encoder flags endian) waiting l).2.length ≤ 1
  := by
  induction l generalizing waiting with
  | nil => exact h
  | cons u l ih =>
    apply ih
    unfold encoder
    split
    · split
      · exact Nat.zero_le 1
      · exact encodeUnit_length flags endian u
    · exact encodeUnit_length flags endian u

/-- What is written in front of the first character. -/
def header (order : Endian) (endian : DataEndianness) (t : State UInt16) : QByteArray :=
  if !t.headerDone && t.flags.writeBom then octets (written order endian) 0xfeff else []

/-- A call writes the header, and what the machine writes. -/
theorem convertFromUnicode_eq (order : Endian) {t : State UInt16}
    (hstateless : t.flags.stateless = false) (hdata : t.data.length ≤ 1) (l : QString) :
  convertFromUnicode order l t endian
    = (header order endian t ++ (transduce (encoder t.flags (written order endian)) t.data l).1,
      { t with
        headerDone := t.headerDone || (!t.headerDone && t.flags.writeBom)
        data := (transduce (encoder t.flags (written order endian)) t.data l).2 })
  := by
  rw [convertFromUnicode]
  rcases hwaiting : t.data with _ | ⟨ch, _ | ⟨ch', data⟩⟩
  · dsimp only
    rw [encodeUnits_eq hstateless]
    rfl
  · dsimp only
    rw [transduce_waiting hstateless]
    rcases hdecode : decodeSurrogate t.flags ch l with ⟨_ | ucs4, rest⟩
    · dsimp only
      rw [← hwaiting, List.append_nil]
      rfl
    · dsimp only
      rw [encodeUnits_eq hstateless, ← List.append_assoc]
      rfl
  · rw [hwaiting] at hdata
    simp at hdata

/-- One call reads as the machine does. -/
theorem convertFromUnicode_writes (order : Endian) {waiting : QString} {t : State UInt16}
    (hstateless : flags.stateless = false) (h : Writes flags waiting t) (l : QString) :
  (convertFromUnicode order l t endian).1
      = (transduce (encoder flags (written order endian)) waiting l).1
    ∧ Writes flags (transduce (encoder flags (written order endian)) waiting l).2
      (convertFromUnicode order l t endian).2
  := by
  obtain ⟨rfl, rfl, hwaiting, hbom⟩ := h
  have hheader : header order endian t = [] := by
    rw [header, hbom, if_neg Bool.false_ne_true]
  rw [convertFromUnicode_eq order hstateless hwaiting, hheader, List.nil_append]
  refine ⟨rfl, rfl, rfl, encoder_length t.flags (written order endian) t.data hwaiting l, ?_⟩
  rw [hbom, Bool.or_false]
  exact hbom

/-- The first call. -/
theorem convertFromUnicode_new (order : Endian) (hstateless : flags.stateless = false)
    (l : QString) :
  convertFromUnicode order l (.new flags) endian
    = (header order endian (.new flags)
        ++ (transduce (encoder flags (written order endian)) [] l).1,
      { flags := flags
        headerDone := flags.writeBom
        endian := .detectEndianness
        data := (transduce (encoder flags (written order endian)) [] l).2 })
  := by
  have hnew : (State.new flags : State UInt16).data.length ≤ 1 := Nat.zero_le 1
  rw [convertFromUnicode_eq order hstateless hnew]
  rfl

/-- Successive calls, one at least, yield what one call yields. -/
theorem convertFromUnicode_chunks (hstateless : flags.stateless = false) (order : Endian)
    (text : QString) (texts : List QString) :
  outcome (runCalls (fun t l => convertFromUnicode order l t endian) (.new flags) (text :: texts))
    = outcome (convertFromUnicode order (text :: texts).flatten (.new flags) endian)
  := by
  have hsimulates : Simulates (encoder flags (written order endian))
      (fun t l => convertFromUnicode order l t endian) (Writes flags) := {
    output := fun hrel l => (convertFromUnicode_writes order hstateless hrel l).1
    next := fun hrel l => (convertFromUnicode_writes order hstateless hrel l).2 }
  have hwrites : Writes flags (transduce (encoder flags (written order endian)) [] text).2
      (convertFromUnicode order text (.new flags) endian).2 := by
    rw [convertFromUnicode_new order hstateless]
    refine ⟨rfl, rfl, encoder_length flags (written order endian) [] (Nat.zero_le 1) text, ?_⟩
    apply Bool.not_and_self
  obtain ⟨hrest, -, hwaiting, -⟩ := hsimulates.runCalls hwrites texts
  rw [outcome, outcome, runCalls, hrest, hwaiting, List.flatten_cons,
    convertFromUnicode_new order hstateless, convertFromUnicode_new order hstateless,
    transduce_append, List.append_assoc]

end Encoding

end QUtf32

/-! ### Both encodings -/

namespace QStringConverter

/-- Successive calls on a new state yield what one call yields: octets in chunks for
`QUtf16::convertToUnicode` and for `QUtf32::convertToUnicode`, and texts for
`QUtf32::convertFromUnicode`. -/
structure ChunksIndependent (order : Endian) (flags : Flags) (endian : DataEndianness)
    (chunks : List QByteArray) (text : QString) (texts : List QString) : Prop where
  utf16 : outcome (runCalls (fun t l => QUtf16.convertToUnicode order l t endian) (.new flags)
      chunks)
    = outcome (QUtf16.convertToUnicode order chunks.flatten (.new flags) endian)
  utf32 : outcome (runCalls (fun t l => QUtf32.convertToUnicode order l t endian) (.new flags)
      chunks)
    = outcome (QUtf32.convertToUnicode order chunks.flatten (.new flags) endian)
  toUtf32 : outcome (runCalls (fun t l => QUtf32.convertFromUnicode order l t endian) (.new flags)
      (text :: texts))
    = outcome (QUtf32.convertFromUnicode order (text :: texts).flatten (.new flags) endian)

/-- The exception: a first octet that comes alone, in front of the other half of the byte order mark
that is not the host's, where the order is to be detected and the mark is text. -/
theorem chunksIndependent_iff (order : Endian) {flags : Flags}
    (h_stateless : flags.stateless = false) (endian : DataEndianness) (chunks : List QByteArray)
    (text : QString) (texts : List QString) :
  ChunksIndependent order flags endian chunks text texts
    ↔ ¬(endian = .detectEndianness ∧ flags.convertInitialBom = true ∧ QUtf16.FirstAlone chunks
      ∧ QUtf16.otherMark order <+: chunks.flatten)
  := by
  rw [← QUtf16.convertToUnicode_chunks_iff h_stateless chunks]
  constructor
  · intro h
    exact h.utf16
  · intro h
    constructor
    · exact h
    · exact QUtf32.convertToUnicode_chunks h_stateless chunks
    · exact QUtf32.convertFromUnicode_chunks h_stateless order text texts

theorem chunksIndependent_mark :
  ChunksIndependent .littleEndian ⟨false, false, true, false⟩ .detectEndianness
      [[0xfe], [0xff, 0x41]] [0xd83d] [[0xde00]]
    ↔ ¬(DataEndianness.detectEndianness = .detectEndianness ∧ false = true
      ∧ QUtf16.FirstAlone [[0xfe], [0xff, 0x41]]
      ∧ QUtf16.otherMark .littleEndian <+: [[0xfe], [0xff, 0x41]].flatten)
  := chunksIndependent_iff .littleEndian rfl .detectEndianness _ _ _

/-- On a little-endian host, the two octets of the other mark yield another code unit when they come
one by one. -/
theorem not_chunksIndependent :
  ¬∀ (order : Endian) (flags : Flags), flags.stateless = false → ∀ (endian : DataEndianness)
    (chunks : List QByteArray) (text : QString) (texts : List QString),
    ChunksIndependent order flags endian chunks text texts
  := by
  intro h
  have h_utf16 := (h .littleEndian ⟨false, false, false, true⟩ rfl .detectEndianness
    [[0xfe], [0xff]] [] []).utf16
  exact absurd h_utf16 (by decide)

end QStringConverter
