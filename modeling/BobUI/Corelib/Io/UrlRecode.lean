import BobUI.Corelib.Text.Utf8Encode
import Mathlib.Algebra.Order.Group.Int

/-!
# Recoding the percent-encoding of a URL

`recode` and `qt_urlRecode` of `qurlrecode.cpp`, without `FullyDecoded`.  The result is a buffer
whose size is estimated where the first change is made; a write at a place that the buffer does not
have ends the model.
-/

namespace QUrlRecode

inductive EncodingAction where
  | DecodeCharacter
  | LeaveCharacter
  | EncodeCharacter
deriving DecidableEq, Repr

/-- The members of `QUrl::ComponentFormattingOptions` that recoding looks at. -/
structure Encoding where
  EncodeSpaces : Bool
  EncodeUnicode : Bool
  DecodeReserved : Bool
deriving DecidableEq, Repr

/-! ### Action tables -/

/-- What is done with the characters from U+0020 to U+007F. -/
abbrev ActionTable : Type := List EncodingAction

/-- The action that an entry of a table stands for. -/
def encodingAction : ℕ → EncodingAction
  | 0 => .DecodeCharacter
  | 1 => .LeaveCharacter
  | _ => .EncodeCharacter

def defaultActionTable : ActionTable :=
  List.map encodingAction [
    0, 1, 2, 1, 1, 2, 1, 1, 1, 1, 1, 1, 1, 0, 0, 1,
    0, 0, 0, 0, 0, 0, 0, 0, 0, 0, 1, 1, 2, 1, 2, 1,
    1, 0, 0, 0, 0, 0, 0, 0, 0, 0, 0, 0, 0, 0, 0, 0,
    0, 0, 0, 0, 0, 0, 0, 0, 0, 0, 0, 1, 2, 1, 2, 0,
    2, 0, 0, 0, 0, 0, 0, 0, 0, 0, 0, 0, 0, 0, 0, 0,
    0, 0, 0, 0, 0, 0, 0, 0, 0, 0, 0, 2, 2, 2, 0, 2]

/-- The characters where `reservedMask` is 0. -/
def reservedMask : List ℕ :=
  [0x22, 0x3c, 0x3e, 0x5c, 0x5e, 0x60, 0x7b, 0x7c, 0x7d]

/-- `maskTable`: the masked entries become 0. -/
def maskTable (table : ActionTable) : ActionTable :=
  reservedMask.foldl (fun table c => table.set (c - 0x20) .DecodeCharacter) table

/-- A modification of a table: a character, and what is done with it. -/
structure Modification where
  character : UInt8
  action : EncodingAction
deriving DecidableEq, Repr

/-- The table that `qt_urlRecode` builds. -/
def actionTable (encoding : Encoding) (tableModifications : List Modification) : ActionTable :=
  let table := defaultActionTable
  let table := if encoding.DecodeReserved then maskTable table else table
  let table := if encoding.EncodeSpaces then table.set 0 .EncodeCharacter else table
  tableModifications.foldl (fun table p => table.set (p.character.toNat - 0x20) p.action) table

def ActionTable.action (table : ActionTable) (c : UInt16) : EncodingAction :=
  table.getD (c.toNat - 0x20) .EncodeCharacter

/-! ### Hexadecimal digits -/

def percent : UInt16 := 0x25

def isHex (c : UInt16) : Bool :=
  (0x61 ≤ c && c ≤ 0x66) || (0x41 ≤ c && c ≤ 0x46) || (0x30 ≤ c && c ≤ 0x39)

def isUpperHex (c : UInt16) : Bool :=
  c < 0x60

def toUpperHex (c : UInt16) : UInt16 :=
  if isUpperHex c then c else c - 0x20

def decodeNibble (c : UInt16) : UInt16 :=
  if 0x61 ≤ c then c - 0x61 + 0xa
  else if 0x41 ≤ c then c - 0x41 + 0xa
  else c - 0x30

/-- The octet that the two characters after a '%' encode. -/
def decodePercentEncoding : QString → Option UInt8
  | c1 :: c2 :: _ =>
    if isHex c1 && isHex c2 then some (decodeNibble c1 <<< 4 ||| decodeNibble c2).toUInt8 else none
  | _ => none

def encodeNibble (c : UInt8) : UInt16 :=
  (if c < 0xa then 0x30 + c else 0x41 + (c - 0xa)).toUInt16

/-- `QUrlUtf8Traits::appendByte`: an octet in percent-encoding. -/
def encodeByte (b : UInt8) : QString :=
  [percent, encodeNibble (b >>> 4), encodeNibble (b &&& 0xf)]

/-! ### UTF-8 -/

/-- `QChar::isNonCharacter`. -/
def isNonCharacter (ucs4 : ℕ) : Bool :=
  0xfdd0 ≤ ucs4 && (ucs4 ≤ 0xfdef || ucs4 % 0x10000 ≥ 0xfffe)

/-- The octets that `QUrlUtf8Traits::peekByte` finds: 0 where there is no '%', and 0xff where no
two digits follow one. -/
def peekBytes : QString → QByteArray
  | p :: c1 :: c2 :: rest =>
    (if p = percent then (decodePercentEncoding [c1, c2]).getD 0xff else 0) :: peekBytes rest
  | _ => []

/-- `QUtf8Functions::fromUtf8<QUrlUtf8Traits>`: the character whose octets are `b` and the ones
encoded in `src`, and their number. -/
def fromUtf8 (b : UInt8) (src : QString) : Option (QString × ℕ) :=
  match QUtf8.fromUtf8 b (peekBytes src) with
  | .char units length => if isNonCharacter (QUtf8.toUcs4 units) then none else some (units, length)
  | _ => none

/-- `QUtf8Functions::toUtf8<QUrlUtf8Traits>`: the octets of a character, and what is left of the
input, of which the second half of a pair is read before a noncharacter is refused. -/
def toUtf8 (u : UInt16) (src : QString) : Option QByteArray × QString :=
  match QUtf8.toUtf8 u src with
  | none => (none, src)
  | some (bytes, rest) =>
    let units := if QUtf8.isHighSurrogate u then (u :: src).take 2 else [u]
    if isNonCharacter (QUtf8.toUcs4 units) then (none, rest) else (some bytes, rest)

/-- The octets of a code unit that `toUtf8` refuses: "we will encode bad UTF-16 to UTF-8". -/
def badOctets (decoded : UInt16) : QByteArray :=
  [(0xe0 : UInt8) ||| (decoded >>> 12).toUInt8, (0x80 : UInt8) ||| ((decoded >>> 6).toUInt8 &&& 0x3f),
    (0x80 : UInt8) ||| (decoded.toUInt8 &&& 0x3f)]

/-- The octets that `unicodeToEncodedUtf8` writes, and what is left of the input. -/
def encodedUtf8 (decoded : UInt16) (src : QString) : QByteArray × QString :=
  match toUtf8 decoded src with
  | (some bytes, rest) => (bytes, rest)
  | (none, rest) => (badOctets decoded, rest)

/-! ### The result -/

/-- The conversion of a `qsizetype` to an `int`. -/
def toInt (x : ℤ) : ℤ :=
  Int.bmod x (2 ^ 32)

/-- The result after it was detached: its size, the place where `output` points to, and what was
written. -/
structure Buffer where
  size : ℤ
  pos : ℤ
  text : QString
deriving DecidableEq, Repr

/-- Why a pass ends early. -/
inductive Stop where
  | outOfBounds
  | invalidEncoding
deriving DecidableEq, Repr

def Buffer.put (b : Buffer) (c : UInt16) : Except Stop Buffer :=
  if 0 ≤ b.pos ∧ b.pos < b.size then .ok ⟨b.size, b.pos + 1, b.text ++ [c]⟩
  else .error .outOfBounds

def Buffer.putAll (b : Buffer) : QString → Except Stop Buffer
  | [] => .ok b
  | c :: cs => do (← b.put c).putAll cs

/-- `QString::resize`. -/
def Buffer.resize (b : Buffer) (size : ℤ) : Buffer :=
  { b with size := max 0 size }

/-- Create enough space if the rest of the string needed to be percent-encoded, and copy the
characters that were already processed. -/
def ensureDetached (origSize : ℤ) (processed rest : QString) (add : ℤ) :
    Option Buffer → Except Stop Buffer
  | some b => .ok b
  | none =>
    let charsProcessed := toInt processed.length
    let charsRemaining := toInt rest.length
    let spaceNeeded := toInt (processed.length + rest.length + toInt (2 * charsRemaining) + add)
    (Buffer.resize ⟨origSize, origSize, []⟩ (toInt (origSize + spaceNeeded))).putAll
      (processed.take charsProcessed.toNat)

/-- The buffer where `unicodeToEncodedUtf8` writes: "verify that there's enough space or
expand". -/
def ensureSpace (origSize : ℤ) (processed rest : QString) (utf8len : ℤ) :
    Option Buffer → Except Stop Buffer
  | none => ensureDetached origSize processed rest (3 * utf8len - 3) none
  | some b =>
    let charsRemaining := toInt (rest.length - 1)
    let pos := toInt b.pos
    let spaceRemaining := toInt (b.size - pos)
    .ok (if spaceRemaining < toInt (3 * charsRemaining + 3 * utf8len) then
      { b.resize (b.size + 3 * utf8len) with pos := pos } else b)

/-! ### Recoding -/

/-- What a turn of the loop of `recode` does with a character. -/
inductive Turn where
  /-- No change is necessary. -/
  | copy
  /-- Always write "%25". -/
  | percent
  /-- The encoded octets are a character of so many octets. -/
  | decodeUtf8 (units : QString) (charsNeeded : ℕ)
  | encodeUtf8
  /-- Cases 5 and 6: it's encoded and we're leaving it as it is. -/
  | leaveEncoded
  /-- Case 4: we need to decode. -/
  | decode (decoded : UInt8)
  /-- Case 3: we need to encode. -/
  | encode
  | invalid
deriving DecidableEq, Repr

variable (table : ActionTable) (encoding : Encoding) (retryBadEncoding : Bool)

/-- The turn for the character `c` in front of `tail`.  A character below U+0020 is encoded, and
stays so, as does one whose action is that of '%'. -/
def turn (c : UInt16) (tail : QString) : Turn :=
  if 0x20 ≤ c && c < 0x80 && table.action c ≠ .EncodeCharacter then .copy
  else if c = percent then
    if retryBadEncoding then .percent
    else
      match decodePercentEncoding tail with
      | none => .invalid
      | some decoded =>
        if 0x80 ≤ decoded then
          if encoding.EncodeUnicode then .leaveEncoded
          else
            match fromUtf8 decoded (tail.drop 2) with
            | some (units, charsNeeded) => .decodeUtf8 units charsNeeded
            | none => .leaveEncoded
        else if 0x20 ≤ decoded && table.action decoded.toUInt16 = .DecodeCharacter then
          .decode decoded
        else .leaveEncoded
  else if 0x80 ≤ c then
    if encoding.EncodeUnicode then .encodeUtf8 else .copy
  else .encode

/-- The two digits of an encoded character. -/
def digits (tail : QString) : UInt16 × UInt16 :=
  (tail.headD 0, tail.tail.headD 0)

/-- The buffer after a turn, and how many characters after `c` it has read. -/
def perform (origSize : ℤ) (processed : QString) (c : UInt16) (tail : QString)
    (output : Option Buffer) : Turn → Except Stop (Option Buffer × ℕ)
  | .copy =>
    match output with
    | none => .ok (none, 0)
    | some b => do return (some (← b.put c), 0)
  | .percent => do
    let b ← ensureDetached origSize processed (c :: tail) 0 output
    return (some (← b.putAll [0x25, 0x32, 0x35]), 0)
  | .decodeUtf8 units charsNeeded => do
    let add : ℤ := if units.length = 1 then -3 * charsNeeded + 1 else -10
    let b ← ensureDetached origSize processed (c :: tail) add output
    return (some (← b.putAll units), 3 * charsNeeded - 1)
  | .encodeUtf8 => do
    let utf8len : ℤ := if QUtf8.isHighSurrogate c then 4 else if 0x800 ≤ c then 3 else 2
    let b ← ensureSpace origSize processed (c :: tail) utf8len output
    let (bytes, rest) := encodedUtf8 c tail
    return (some (← b.putAll (bytes.flatMap encodeByte)), tail.length - rest.length)
  | .leaveEncoded => do
    let (c1, c2) := digits tail
    if output.isSome || !isUpperHex c1 || !isUpperHex c2 then
      let b ← ensureDetached origSize processed (c :: tail) 0 output
      return (some (← b.putAll [percent, toUpperHex c1, toUpperHex c2]), 2)
    else return (none, 0)
  | .decode decoded => do
    let b ← ensureDetached origSize processed (c :: tail) 0 output
    return (some (← b.putAll [decoded.toUInt16]), 2)
  | .encode => do
    let b ← ensureDetached origSize processed (c :: tail) 0 output
    return (some (← b.putAll (encodeByte c.toUInt8)), 0)
  | .invalid => .error .invalidEncoding

/-- The loop of `recode`, from a place of the input on. -/
def recodeLoop (origSize : ℤ) (processed : QString) (output : Option Buffer) :
    QString → Except Stop (Option Buffer)
  | [] => .ok output
  | c :: tail => do
    let (output, more) ← perform origSize processed c tail output
      (turn table encoding retryBadEncoding c tail)
    recodeLoop origSize (processed ++ (c :: tail.take more)) output (tail.drop more)
termination_by rest => rest.length
decreasing_by rw [List.length_drop, List.length_cons]; omega

/-- What is appended to a result that was detached, up to the place where `output` points to. -/
def Buffer.appended (origSize : ℤ) (b : Buffer) : QString :=
  b.text.take (toInt b.pos - origSize).toNat

/-- `recode`: an input with an encoding that is not valid is recoded again, where every '%' is
encoded.  Nothing is appended to a result that was not detached. -/
def recode (origSize : ℤ) (input : QString) : Except Stop (Option QString) :=
  (match recodeLoop table encoding false origSize [] none input with
    | .error .invalidEncoding => recodeLoop table encoding true origSize [] none input
    | result => result).map (Option.map (Buffer.appended origSize))

/-- `qt_urlRecode`. -/
def qt_urlRecode (origSize : ℤ) (input : QString) (tableModifications : List Modification) :
    Except Stop (Option QString) :=
  recode (actionTable encoding tableModifications) encoding origSize input

end QUrlRecode
