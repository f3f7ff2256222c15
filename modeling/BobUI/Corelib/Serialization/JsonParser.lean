import BobUI.Corelib.Serialization.Json

/-!
# Parsing JSON

The parser of `qjsonparser.cpp`.  A function of the parser reads the octets from its position on
and returns what is left of them.  The text of a number is read by the library, and the members
of an object are sorted by `std::stable_sort`, which is a parameter.
-/

namespace JsonParser

/-- `QJsonParseError::ParseError`; in the model, a parse that has used up its turns has an error
of its own. -/
inductive ParseError where
  | unterminatedObject
  | missingNameSeparator
  | unterminatedArray
  | missingValueSeparator
  | illegalValue
  | illegalNumber
  | illegalEscapeSequence
  | illegalUTF8String
  | unterminatedString
  | missingObject
  | deepNesting
  | garbageAtEnd
  | endless
  deriving DecidableEq, Repr

def nestingLimit : ℕ := 1024

def quote : UInt8 := 0x22

def backslash : UInt8 := 0x5c

def beginArray : UInt8 := 0x5b

def beginObject : UInt8 := 0x7b

def endArray : UInt8 := 0x5d

def endObject : UInt8 := 0x7d

def nameSeparator : UInt8 := 0x3a

def valueSeparator : UInt8 := 0x2c

/-! ### Tokens -/

def eatBOM (json : QByteArray) : QByteArray :=
  if 3 < json.length && QUtf8.utf8bom.isPrefixOf json then json.drop 3 else json

def eatSpace (json : QByteArray) : QByteArray :=
  json.dropWhile fun c => c = 0x20 || c = 0x09 || c = 0x0a || c = 0x0d

/-- The next token, which is 0 where none is there. -/
def nextToken (json : QByteArray) : UInt8 × QByteArray :=
  match eatSpace json with
  | [] => (0, [])
  | c :: json =>
    if c = beginArray || c = beginObject || c = nameSeparator || c = valueSeparator
        || c = endArray || c = endObject || c = quote then (c, json)
    else (0, json)

/-! ### Strings -/

/-- The value of a hexadecimal digit. -/
def fromHex (c : UInt8) : Option ℕ :=
  if 0x30 ≤ c && c ≤ 0x39 then some (c.toNat - 0x30)
  else if 0x41 ≤ c && c ≤ 0x46 then some (c.toNat - 0x41 + 10)
  else if 0x61 ≤ c && c ≤ 0x66 then some (c.toNat - 0x61 + 10)
  else none

/-- The four digits of an escape sequence. -/
def scanHexDigits : ℕ → ℕ → QByteArray → Option (ℕ × QByteArray)
  | 0, ch, json => some (ch, json)
  | _ + 1, _, [] => none
  | count + 1, ch, c :: json => do
    let h ← fromHex c
    scanHexDigits count (ch <<< 4 ||| h) json

/-- What follows a backslash. -/
def scanEscapeSequence : QByteArray → Option (ℕ × QByteArray)
  | [] => none
  | escaped :: json =>
    if escaped = 0x62 then some (0x8, json)
    else if escaped = 0x66 then some (0xc, json)
    else if escaped = 0x6e then some (0xa, json)
    else if escaped = 0x72 then some (0xd, json)
    else if escaped = 0x74 then some (0x9, json)
    else if escaped = 0x75 then scanHexDigits 4 0 json
    else some (escaped.toNat, json)

/-- The code point of the character at the start of the octets, and their number. -/
def scanUtf8Char (b : UInt8) (src : QByteArray) : Option (ℕ × ℕ) :=
  match QUtf8.fromUtf8 b src with
  | .char units length => some (QUtf8.toUcs4 units, length)
  | _ => none

/-- What the first loop of `parseString` finds. -/
inductive Scan where
  /-- The string has no escape sequences: its octets, and whether they are US-ASCII. -/
  | closed (text : QByteArray) (isAscii : Bool) (json : QByteArray)
  | escape
  | error (e : ParseError)
  deriving DecidableEq, Repr

/-- The first loop of `parseString`, behind the octets of `text`, the last of which come
first. -/
def scanPlain (text : QByteArray) (isAscii : Bool) : QByteArray → Scan
  | [] => .error .unterminatedString
  | b :: src =>
    if b = quote then .closed text isAscii src
    else if b = backslash then .escape
    else
      match scanUtf8Char b src with
      | none => .error .illegalUTF8String
      | some (ch, length) =>
        scanPlain (text ++ b :: src.take (length - 1)) (isAscii && ch ≤ 0x7f)
          (src.drop (length - 1))
termination_by json => json.length
decreasing_by
  rw [List.length_drop]
  exact Nat.lt_succ_of_le (Nat.sub_le _ _)

/-- `QChar::fromUcs4`. -/
def fromUcs4 (ch : ℕ) : QString :=
  QUtf8.appendUcs4 ch

theorem scanHexDigits_length {count ch n : ℕ} {json rest : QByteArray}
    (h : scanHexDigits count ch json = some (n, rest)) :
  rest.length ≤ json.length
  := by
  induction count generalizing ch json with
  | zero => cases h; exact Nat.le_refl _
  | succ count ih =>
    cases json with
    | nil => cases h
    | cons c json =>
      rw [scanHexDigits] at h
      cases hc : fromHex c with
      | none => rw [hc] at h; cases h
      | some x =>
        rw [hc] at h
        exact Nat.le_succ_of_le (ih h)

theorem scanEscapeSequence_length {n : ℕ} {json rest : QByteArray}
    (h : scanEscapeSequence json = some (n, rest)) :
  rest.length ≤ json.length
  := by
  cases json with
  | nil => cases h
  | cons c json =>
    rw [scanEscapeSequence] at h
    repeat' split at h
    all_goals first
      | exact Nat.le_succ_of_le (scanHexDigits_length h)
      | cases h; exact Nat.le_succ _

/-- The second loop of `parseString`. -/
def scanEscaped : QByteArray → Except ParseError (QString × QByteArray)
  | [] => .error .unterminatedString
  | b :: src =>
    if b = quote then .ok ([], src)
    else if b = backslash then
      match _h : scanEscapeSequence src with
      | none => .error .illegalEscapeSequence
      | some (ch, json) => do
        let (ucs4, rest) ← scanEscaped json
        pure (fromUcs4 ch ++ ucs4, rest)
    else
      match scanUtf8Char b src with
      | none => .error .illegalUTF8String
      | some (ch, length) => do
        let (ucs4, rest) ← scanEscaped (src.drop (length - 1))
        pure (fromUcs4 ch ++ ucs4, rest)
termination_by json => json.length
decreasing_by
  · exact Nat.lt_succ_of_le (scanEscapeSequence_length _h)
  · rw [List.length_drop]
    exact Nat.lt_succ_of_le (Nat.sub_le _ _)

def parseString (json : QByteArray) : Except ParseError (JsonString × QByteArray) :=
  match scanPlain [] true json with
  | .error e => .error e
  | .closed text isAscii rest => .ok (if isAscii then .ascii text else .utf8 text, rest)
  | .escape => do
    let (ucs4, rest) ← scanEscaped json
    pure (.utf16 ucs4, rest)

/-! ### Numbers -/

def isAsciiDigit (c : UInt8) : Bool :=
  0x30 ≤ c && c ≤ 0x39

/-- The optional minus at the start, and what follows. -/
def spanMinus : QByteArray → QByteArray × QByteArray
  | c :: json => if c = 0x2d then ([c], json) else ([], c :: json)
  | [] => ([], [])

/-- A zero or a sequence of digits. -/
def spanInt : QByteArray → QByteArray × QByteArray
  | c :: json => if c = 0x30 then ([c], json) else (c :: json).span isAsciiDigit
  | [] => ([], [])

/-- The fraction. -/
def spanFrac : QByteArray → QByteArray × QByteArray
  | c :: json =>
    if c = 0x2e then (c :: (json.span isAsciiDigit).1, (json.span isAsciiDigit).2)
    else ([], c :: json)
  | [] => ([], [])

/-- The optional sign of the exponent. -/
def spanSign : QByteArray → QByteArray × QByteArray
  | c :: json => if c = 0x2d || c = 0x2b then ([c], json) else ([], c :: json)
  | [] => ([], [])

/-- The exponent. -/
def spanExp : QByteArray → QByteArray × QByteArray
  | c :: json =>
    if c = 0x65 || c = 0x45 then
      let (sign, json) := spanSign json
      (c :: sign ++ (json.span isAsciiDigit).1, (json.span isAsciiDigit).2)
    else ([], c :: json)
  | [] => ([], [])

/-- `QByteArray::toLongLong` of a text without spaces, where it succeeds. -/
def toLongLong (text : QByteArray) : Option ℤ :=
  let (minus, digits) := spanMinus text
  if digits.isEmpty || !digits.all isAsciiDigit then none
  else
    let n := digits.foldl (fun (n : ℕ) c => 10 * n + (c.toNat - 0x30)) 0
    let value : ℤ := if minus.isEmpty then n else -n
    if -2 ^ 63 ≤ value && value < 2 ^ 63 then some value else none

variable {D : Type} (F : DoubleText D)

/-- The value of the text of a number, which is an integer where the fraction has no digit but 0
and there is no exponent. -/
def numberValue (number : QByteArray) (isInt : Bool) : Except ParseError (JsonValue D) :=
  match if isInt then toLongLong number else none with
  | some n => .ok (.integer n)
  | none =>
    match F.toDouble number with
    | none => .error .illegalNumber
    | some d =>
      match F.convertDoubleTo d true with
      | some n => .ok (.integer n)
      | none => .ok (.double d)

def parseNumber (json : QByteArray) : Except ParseError (JsonValue D × QByteArray) := do
  let (minus, json) := spanMinus json
  let (int, json) := spanInt json
  let (frac, json) := spanFrac json
  let (exp, json) := spanExp json
  let isInt := frac.tail.all (· = 0x30) && exp.isEmpty
  let value ← numberValue F (minus ++ int ++ frac ++ exp) isInt
  pure (value, json)

/-! ### Objects -/

/-- A member of an object. -/
abbrev Member (D : Type) := JsonString × JsonValue D

/-- `customAssigningUniqueLast`: of the members with one key, which are adjacent, the last one is
kept. -/
def uniqueLast : List (Member D) → List (Member D)
  | [] => []
  | [m] => [m]
  | m :: n :: members =>
    if JsonString.compareKeys m.1 n.1 = 0 then uniqueLast (n :: members)
    else m :: uniqueLast (n :: members)

/-- The comparison of two members by their keys. -/
def keyLess (m n : Member D) : Bool :=
  JsonString.compareKeys m.1 n.1 < 0

variable (stableSort : (Member D → Member D → Bool) → List (Member D) → List (Member D))

def sortContainer (members : List (Member D)) : List (Member D) :=
  uniqueLast (stableSort keyLess members)

/-! ### Values -/

/-- A text that follows its first character. -/
def parseLiteral (text : QByteArray) (value : JsonValue D) (json : QByteArray) :
    Except ParseError (JsonValue D × QByteArray) :=
  if text.isPrefixOf json then .ok (value, json.drop text.length) else .error .illegalValue

section Containers

-- A value at a position, which is parsed one level deeper.
variable (value : QByteArray → Except ParseError (JsonValue D × QByteArray))

/-- The loop of `parseArray`, for a number of turns. -/
def parseElements : ℕ → QByteArray → Except ParseError (List (JsonValue D) × QByteArray)
  | 0, _ => .error .endless
  | turns + 1, json =>
    match eatSpace json with
    | [] => .error .unterminatedArray
    | json => do
      let (v, json) ← value json
      let (token, rest) := nextToken json
      if token = endArray then pure ([v], rest)
      else if token = valueSeparator then
        let (elements, rest) ← parseElements turns rest
        pure (v :: elements, rest)
      else if (eatSpace rest).isEmpty then throw .unterminatedArray
      else throw .missingValueSeparator

def parseArray (turns : ℕ) (json : QByteArray) :
    Except ParseError (List (JsonValue D) × QByteArray) :=
  match eatSpace json with
  | [] => .error .unterminatedArray
  | c :: json =>
    if c = endArray then .ok ([], json) else parseElements value turns (c :: json)

def parseMember (json : QByteArray) : Except ParseError (Member D × QByteArray) := do
  let (key, json) ← parseString json
  let (token, json) := nextToken json
  if token ≠ nameSeparator then throw .missingNameSeparator
  else
    match eatSpace json with
    | [] => throw .unterminatedObject
    | json => do
      let (v, json) ← value json
      pure ((key, v), json)

/-- The loop of `parseObject` from a quotation mark on, for a number of turns. -/
def parseMembers : ℕ → QByteArray → Except ParseError (List (Member D) × QByteArray)
  | 0, _ => .error .endless
  | turns + 1, json => do
    let (m, json) ← parseMember value json
    let (token, json) := nextToken json
    if token = valueSeparator then
      let (token, json) := nextToken json
      if token = endObject then throw .missingObject
      else if token = quote then
        let (members, json) ← parseMembers turns json
        pure (m :: members, json)
      else throw .unterminatedObject
    else if token = endObject then pure ([m], json)
    else throw .unterminatedObject

def parseObject (turns : ℕ) (json : QByteArray) :
    Except ParseError (List (Member D) × QByteArray) := do
  let (token, json) := nextToken json
  if token = quote then
    let (members, json) ← parseMembers value turns json
    pure (sortContainer stableSort members, json)
  else if token = endObject then pure ([], json)
  else throw .unterminatedObject

end Containers

/-- `parseValue` at a nesting level, for a number of turns of the loops and of the recursion.
The callers have found that there are octets. -/
def parseValue : ℕ → ℕ → QByteArray → Except ParseError (JsonValue D × QByteArray)
  | 0, _, _ => .error .endless
  | _, _, [] => .error .illegalValue
  | turns + 1, nestingLevel, c :: json =>
    if c = 0x6e then parseLiteral [0x75, 0x6c, 0x6c] .null json
    else if c = 0x74 then parseLiteral [0x72, 0x75, 0x65] (.bool true) json
    else if c = 0x66 then parseLiteral [0x61, 0x6c, 0x73, 0x65] (.bool false) json
    else if c = quote then do
      let (s, json) ← parseString json
      pure (.string s, json)
    else if c = beginArray then
      if nestingLimit < nestingLevel + 1 then .error .deepNesting
      else do
        let (elements, json) ← parseArray (parseValue turns (nestingLevel + 1)) turns json
        pure (.array elements, json)
    else if c = beginObject then
      if nestingLimit < nestingLevel + 1 then .error .deepNesting
      else do
        let (members, json) ←
          parseObject stableSort (parseValue turns (nestingLevel + 1)) turns json
        pure (.object members, json)
    else if c = valueSeparator then .error .illegalValue
    else if c = endObject || c = endArray then .error .missingObject
    else parseNumber F (c :: json)

def parse (json : QByteArray) : Except ParseError (JsonValue D) :=
  match eatSpace (eatBOM json) with
  | [] => .error .illegalValue
  | c :: rest => do
    let (value, rest) ←
      if c = quote then do
        let (s, rest) ← parseString rest
        pure (.string s, rest)
      else parseValue F stableSort (json.length + 1) 0 (c :: rest)
    if (eatSpace rest).isEmpty then pure value else throw .garbageAtEnd

end JsonParser
