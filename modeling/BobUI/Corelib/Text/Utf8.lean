import BobUI.Corelib.Text.Strings

/-!
# Decoding UTF-8

`QUtf8Functions::fromUtf8` and `QUtf8::convertToUnicode` of `qstringconverter.cpp`.  Octets
that end in the middle of a sequence stay in the state, and the next call decodes them
together with its first octets.
-/

namespace QUtf8

/-- What `fromUtf8` returns: an error, a sequence that the octets do not complete, or the
code units of a character and the number of its octets. -/
inductive Result where
  | error
  | endOfString
  | char (units : QString) (length : ℕ)
deriving DecidableEq, Repr

def isContinuationByte (b : UInt8) : Bool :=
  b &&& 0xc0 = 0x80

/-- `QChar::isSurrogate`. -/
def isSurrogate (ucs4 : ℕ) : Bool :=
  0xd800 ≤ ucs4 && ucs4 ≤ 0xdfff

/-- The code units of a code point. -/
def appendUcs4 (uc : ℕ) : QString :=
  if uc < 0x10000 then [UInt16.ofNat uc]
  else [UInt16.ofNat (uc / 0x400 + 0xd7c0), UInt16.ofNat (uc % 0x400 + 0xdc00)]

/-- The value of a sequence with one more octet. -/
def addBits (uc : ℕ) (b : UInt8) : ℕ :=
  uc * 0x40 + (b &&& 0x3f).toNat

/-- The checks of a decoded code point, and its code units. -/
def finish (charsNeeded minUc uc : ℕ) : Result :=
  if uc < minUc then .error
  else if isSurrogate uc || 0x10ffff < uc then .error
  else .char (appendUcs4 uc) charsNeeded

/-- The continuation octets of a sequence. -/
def continuation (charsNeeded minUc : ℕ) : (count uc : ℕ) → QByteArray → Result
  | 0, uc, _ => finish charsNeeded minUc uc
  | _ + 1, _, [] => .endOfString
  | count + 1, uc, b :: src =>
    if !isContinuationByte b then .error
    else continuation charsNeeded minUc count (addBits uc b) src

/-- `QUtf8Functions::fromUtf8`: the character that starts with the octet `b`, in front of
the octets `src`. -/
def fromUtf8 (b : UInt8) (src : QByteArray) : Result :=
  if b < 0x80 then .char [b.toUInt16] 1
  else if b ≤ 0xc1 then .error
  else if b < 0xe0 then continuation 2 0x80 1 (b &&& 0x1f).toNat src
  else if b < 0xf0 then continuation 3 0x800 2 (b &&& 0x0f).toNat src
  else if b < 0xf5 then continuation 4 0x10000 3 (b &&& 0x07).toNat src
  else .error

/-- The members of `QStringConverter::Flags` that concern decoding. -/
structure Flags where
  stateless : Bool
  convertInvalidToNull : Bool
  convertInitialBom : Bool
deriving DecidableEq, Repr

/-- `QStringConverter::State`; `stateData` holds the `remainingChars` octets of an
unfinished sequence. -/
structure State where
  flags : Flags
  headerDone : Bool
  stateData : QByteArray
  invalidChars : ℕ
deriving DecidableEq, Repr

namespace State

def new (flags : Flags) : State where
  flags := flags
  headerDone := false
  stateData := []
  invalidChars := 0

/-- The code unit that stands for malformed input. -/
def replacement (s : State) : UInt16 :=
  if s.flags.convertInvalidToNull then 0 else 0xfffd

end State

/-- What decoding yields: code units, the octets of an unfinished sequence at the end, and
the number of errors. -/
structure Decoded where
  units : QString
  unfinished : QByteArray
  invalidChars : ℕ
deriving DecidableEq, Repr

/-- The loop of `convertToUnicode`: every octet that starts no character is replaced. -/
def decode (replacement : UInt16) : QByteArray → Decoded
  | [] => ⟨[], [], 0⟩
  | b :: src =>
    match fromUtf8 b src with
    | .error =>
      let rest := decode replacement src
      ⟨replacement :: rest.units, rest.unfinished, rest.invalidChars + 1⟩
    | .endOfString => ⟨[], b :: src, 0⟩
    | .char units length =>
      let rest := decode replacement (src.drop (length - 1))
      ⟨units ++ rest.units, rest.unfinished, rest.invalidChars⟩
termination_by bytes => bytes.length
decreasing_by all_goals simp +arith

/-- The main body of `convertToUnicode`, and what it does with an unfinished sequence. -/
def State.decodeRest (s : State) (src : QByteArray) : QString × State :=
  let decoded := decode s.replacement src
  if s.flags.stateless then
    (decoded.units ++ List.replicate decoded.unfinished.length 0xfffd,
      { s with
        stateData := []
        invalidChars := s.invalidChars + decoded.invalidChars + decoded.unfinished.length })
  else
    (decoded.units,
      { s with
        stateData := decoded.unfinished
        invalidChars := s.invalidChars + decoded.invalidChars })

/-- The octets of the byte order mark. -/
def utf8bom : QByteArray :=
  [0xef, 0xbb, 0xbf]

/-- The code units of the first character, without a byte order mark. -/
def eatBom (units : QString) : QString :=
  if units.getLast? = some 0xfeff then units.dropLast else units

/-- `QUtf8::convertToUnicode` with a state. -/
def convertToUnicode (input : QByteArray) (s : State) : QString × State :=
  if input = [] then ([], s)
  else if s.flags.stateless then
    if !s.flags.convertInitialBom && utf8bom.isPrefixOf input then s.decodeRest (input.drop 3)
    else s.decodeRest input
  else
    let headerDone := s.headerDone || s.flags.convertInitialBom
    match s.stateData ++ input.take (4 - s.stateData.length) with
    | [] => s.decodeRest input
    | b :: src =>
      if s.stateData = [] && headerDone then s.decodeRest input
      else
        match fromUtf8 b src with
        | .error =>
          let (units, s') := State.decodeRest
            { s with headerDone := true, invalidChars := s.invalidChars + 1 } (input.drop 1)
          (s.replacement :: units, s')
        | .endOfString => ([], { s with stateData := b :: src })
        | .char units length =>
          let (rest, s') := State.decodeRest { s with headerDone := true }
            (input.drop (length - s.stateData.length))
          ((if headerDone then units else eatBom units) ++ rest, s')

/-- Successive calls on one state. -/
def convertChunks : List QByteArray → State → QString × State
  | [], s => ([], s)
  | input :: chunks, s =>
    let (units, s) := convertToUnicode input s
    let (rest, s) := convertChunks chunks s
    (units ++ rest, s)

end QUtf8
