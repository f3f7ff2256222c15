import BobUI.Corelib.Text.ByteArrayNumbers
import BobUI.Corelib.Text.Utf8Encode
import BobUI.Library.OrderedMap
import Mathlib.Data.List.Lex

/-!
# INI files

`QSettingsPrivate` and `QConfFileSettingsPrivate` of `qsettings.cpp`, as on Unix, where a
`QSettingsKey` is compared with regard to case and has no position: the texts of keys and values,
`readIniLine`, `readIniFile`, `readIniSection` and `writeIniFile`.
-/

instance instLinearOrderUInt16 : LinearOrder UInt16 where
  le_refl := UInt16.le_refl
  le_trans _ _ _ := UInt16.le_trans
  le_antisymm _ _ := UInt16.le_antisymm
  le_total := UInt16.le_total
  lt_iff_le_not_ge _ _ := by
    rw [UInt16.not_le, UInt16.le_iff_toNat_le, UInt16.lt_iff_toNat_lt]
    exact (and_iff_right_of_imp Nat.le_of_lt).symm
  toDecidableLE := inferInstance

namespace QSettings

/-! ### Values -/

/-- A `QVariant` that is not a list.  One of a type that is not known here is what `QDataStream`
writes, for a date and time in another version than for the rest. -/
inductive QVariant where
  | invalid
  | byteArray (a : QByteArray)
  | string (s : QString)
  | rect (x y width height : ℤ)
  | size (width height : ℤ)
  | point (x y : ℤ)
  | streamed (isDateTime : Bool) (octets : QByteArray)
deriving DecidableEq, Repr

/-- The value of a key. -/
inductive Value where
  | single (v : QVariant)
  | stringList (strs : List QString)
  | variantList (list : List QVariant)
deriving DecidableEq, Repr

abbrev ParsedSettingsMap : Type := OrderedMap QString Value

abbrev UnparsedSettingsMap : Type := OrderedMap QString QByteArray

/-- `@ByteArray(`. -/
def atByteArray : QString :=
  [0x40, 0x42, 0x79, 0x74, 0x65, 0x41, 0x72, 0x72, 0x61, 0x79, 0x28]

/-- `@String(`. -/
def atString : QString :=
  [0x40, 0x53, 0x74, 0x72, 0x69, 0x6e, 0x67, 0x28]

/-- `@Variant(`. -/
def atVariant : QString :=
  [0x40, 0x56, 0x61, 0x72, 0x69, 0x61, 0x6e, 0x74, 0x28]

/-- `@DateTime(`. -/
def atDateTime : QString :=
  [0x40, 0x44, 0x61, 0x74, 0x65, 0x54, 0x69, 0x6d, 0x65, 0x28]

/-- `@Rect(`. -/
def atRect : QString :=
  [0x40, 0x52, 0x65, 0x63, 0x74, 0x28]

/-- `@Size(`. -/
def atSize : QString :=
  [0x40, 0x53, 0x69, 0x7a, 0x65, 0x28]

/-- `@Point(`. -/
def atPoint : QString :=
  [0x40, 0x50, 0x6f, 0x69, 0x6e, 0x74, 0x28]

/-- `@Invalid()`. -/
def atInvalid : QString :=
  [0x40, 0x49, 0x6e, 0x76, 0x61, 0x6c, 0x69, 0x64, 0x28, 0x29]

/-- The characters of a Latin-1 string. -/
def latin1 (a : QByteArray) : QString :=
  a.map UInt8.toUInt16

def toLatin1 (s : QString) : QByteArray :=
  s.map fun ch => if ch ≤ 0xff then ch.toUInt8 else 0x3f

/-- A number as `%d` prints it. -/
def decimal (n : ℤ) : QString :=
  (if n < 0 then [0x2d] else []) ++ (Nat.toDigits 10 n.natAbs).map fun c => UInt16.ofNat c.toNat

/-- Numbers between the parenthesis at the end of `name` and one more. -/
def arguments (name : QString) (numbers : List ℤ) : QString :=
  name ++ ((numbers.map decimal).intersperse [0x20]).flatten ++ [0x29]

def variantToString : QVariant → QString
  | .invalid => atInvalid
  | .byteArray a => atByteArray ++ latin1 a ++ [0x29]
  | .string s =>
    if s.contains 0 then atString ++ s ++ [0x29]
    else if s.head? = some 0x40 then 0x40 :: s
    else s
  | .rect x y width height => arguments atRect [x, y, width, height]
  | .size width height => arguments atSize [width, height]
  | .point x y => arguments atPoint [x, y]
  | .streamed isDateTime octets =>
    (if isDateTime then atDateTime else atVariant) ++ latin1 octets ++ [0x29]

/-- `splitArgs`: what is between a parenthesis and the one that ends the text. -/
def splitArgs (item : QString) : QString → List QString
  | [] => []
  | c :: s =>
    if c = 0x29 then item :: splitArgs item s
    else if c = 0x20 then item :: splitArgs [] s
    else splitArgs (item ++ [c]) s

/-- `QString::toInt`, which returns 0 where the conversion fails. -/
def toInt (s : QString) : ℤ :=
  let n := QByteArray.toLong (toLatin1 s) 10
  if -2 ^ 31 ≤ n ∧ n < 2 ^ 31 then n else 0

/-- The value of a text that begins with '@' and ends with ')'. -/
def typedVariant (s : QString) : Option QVariant :=
  if atByteArray.isPrefixOf s then some (.byteArray (toLatin1 (s.drop 11).dropLast))
  else if atString.isPrefixOf s then some (.string (s.drop 8).dropLast)
  else if atVariant.isPrefixOf s then some (.streamed false (toLatin1 (s.drop 9)))
  else if atDateTime.isPrefixOf s then some (.streamed true (toLatin1 (s.drop 10)))
  else if atRect.isPrefixOf s then
    match (splitArgs [] (s.drop 6)).map toInt with
    | [x, y, width, height] => some (.rect x y width height)
    | _ => none
  else if atSize.isPrefixOf s then
    match (splitArgs [] (s.drop 6)).map toInt with
    | [width, height] => some (.size width height)
    | _ => none
  else if atPoint.isPrefixOf s then
    match (splitArgs [] (s.drop 7)).map toInt with
    | [x, y] => some (.point x y)
    | _ => none
  else if s = atInvalid then some .invalid
  else none

def stringToVariant (s : QString) : QVariant :=
  if s.head? = some 0x40 then
    match if s.getLast? = some 0x29 then typedVariant s else none with
    | some v => v
    | none => if s.tail.head? = some 0x40 then .string s.tail else .string s
  else .string s

def variantListToStringList (l : List QVariant) : List QString :=
  l.map variantToString

/-- Where a string of the list has a type, each string of it is a value. -/
def stringListToVariantList (l : List QString) : Value :=
  if l.any fun str => str.head? = some 0x40 && str.tail.head? ≠ some 0x40 then
    .variantList (l.map stringToVariant)
  else .stringList (l.map fun str => if str.head? = some 0x40 then str.tail else str)

/-! ### Characters -/

/-- A character of US-ASCII as it stands in a string. -/
def isHexDigit (c : UInt16) : Bool :=
  (0x30 ≤ c && c ≤ 0x39) || (0x41 ≤ c && c ≤ 0x46) || (0x61 ≤ c && c ≤ 0x66)

def isAsciiLetterOrNumber (c : UInt16) : Bool :=
  (0x30 ≤ c && c ≤ 0x39) || (0x61 ≤ c && c ≤ 0x7a) || (0x41 ≤ c && c ≤ 0x5a)

def fromHex (c : UInt8) : Option UInt16 :=
  if 0x30 ≤ c && c ≤ 0x39 then some (c - 0x30).toUInt16
  else if 0x41 ≤ c && c ≤ 0x46 then some (c - 0x41 + 10).toUInt16
  else if 0x61 ≤ c && c ≤ 0x66 then some (c - 0x61 + 10).toUInt16
  else none

def fromOct (c : UInt8) : Option UInt16 :=
  if 0x30 ≤ c && c ≤ 0x37 then some (c - 0x30).toUInt16 else none

/-- `toHexUpper` of the lowest digit. -/
def toHexUpper (value : ℕ) : UInt8 :=
  let digit := value % 16
  UInt8.ofNat (if digit < 10 then 0x30 + digit else 0x41 + digit - 10)

/-- `QByteArray::number` to base 16. -/
def hexNumber (n : ℕ) : QByteArray :=
  (Nat.toDigits 16 n).map fun c => UInt8.ofNat c.toNat

/-! ### Keys -/

/-- What stands for a character of a key. -/
def escapedKeyChar (ch : UInt16) : QByteArray :=
  if ch = 0x2f then [0x5c]
  else if isAsciiLetterOrNumber ch || ch = 0x5f || ch = 0x2d || ch = 0x2e then [ch.toUInt8]
  else if ch ≤ 0xff then [0x25, toHexUpper (ch.toNat / 16), toHexUpper ch.toNat]
  else [0x25, 0x55, toHexUpper (ch.toNat / 0x1000), toHexUpper (ch.toNat / 0x100),
    toHexUpper (ch.toNat / 0x10), toHexUpper ch.toNat]

def iniEscapedKey (key : QString) : QByteArray :=
  key.flatMap escapedKeyChar

/-- `QStringView::toUShort` to base 16. -/
def toUShort (s : QString) : Option UInt16 :=
  match QByteArray.toULongLong (toLatin1 s) 16 with
  | some n => if n < 0x10000 then some (UInt16.ofNat n) else none
  | none => none

/-- The loop of `iniUnescapedKey`. -/
def unescapedKey : QString → QString
  | [] => []
  | ch :: rest =>
    if ch = 0x5c then 0x2f :: unescapedKey rest
    else if ch ≠ 0x25 || rest = [] then ch :: unescapedKey rest
    else
      let (firstDigit, numDigits) := if rest.head? = some 0x55 then (1, 4) else (0, 2)
      if rest.length < firstDigit + numDigits then 0x25 :: unescapedKey rest
      else
        match toUShort ((rest.drop firstDigit).take numDigits) with
        | none => 0x25 :: unescapedKey rest
        | some ch => ch :: unescapedKey (rest.drop (firstDigit + numDigits))
termination_by decoded => decoded.length
decreasing_by
  all_goals
    try rw [List.length_drop]
    rw [List.length_cons]
    omega

/-- `QString::fromUtf8`. -/
def fromUtf8 (key : QByteArray) : QString :=
  (QUtf8.convertToUnicode key (QUtf8.State.new ⟨true, false, false⟩)).1

/-- `iniUnescapedKey`, without whether the key is in lower case, for which `QSettingsKey` has no
use. -/
def iniUnescapedKey (key : QByteArray) : QString :=
  unescapedKey (fromUtf8 key)

/-! ### Texts of values -/

/-- What stands for a character: the octets, whether a digit after them has to be escaped, and the
state of the encoder. -/
def escapedChar (useCodec escapeNextIfDigit : Bool) (toUtf8 : Option UInt16) (ch : UInt16) :
    QByteArray × Bool × Option UInt16 :=
  if escapeNextIfDigit && isHexDigit ch then ([0x5c, 0x78] ++ hexNumber ch.toNat, true, toUtf8)
  else if ch = 0x00 then ([0x5c, 0x30], true, toUtf8)
  else if ch = 0x07 then ([0x5c, 0x61], false, toUtf8)
  else if ch = 0x08 then ([0x5c, 0x62], false, toUtf8)
  else if ch = 0x0c then ([0x5c, 0x66], false, toUtf8)
  else if ch = 0x0a then ([0x5c, 0x6e], false, toUtf8)
  else if ch = 0x0d then ([0x5c, 0x72], false, toUtf8)
  else if ch = 0x09 then ([0x5c, 0x74], false, toUtf8)
  else if ch = 0x0b then ([0x5c, 0x76], false, toUtf8)
  else if ch = 0x22 || ch = 0x5c then ([0x5c, ch.toUInt8], false, toUtf8)
  else if ch ≤ 0x1f || (0x7f ≤ ch && !useCodec) then
    ([0x5c, 0x78] ++ hexNumber ch.toNat, true, toUtf8)
  else if useCodec then
    let (octets, toUtf8) := QUtf8.convertFromUnicode ch toUtf8
    (octets, false, toUtf8)
  else ([ch.toUInt8], false, toUtf8)

/-- The loop of `iniEscapedString`. -/
def escapedText (useCodec : Bool) : (escapeNextIfDigit : Bool) → (toUtf8 : Option UInt16) →
    QString → QByteArray
  | _, _, [] => []
  | escapeNextIfDigit, toUtf8, ch :: str =>
    let (octets, escapeNextIfDigit, toUtf8) := escapedChar useCodec escapeNextIfDigit toUtf8 ch
    octets ++ escapedText useCodec escapeNextIfDigit toUtf8 str

/-- `iniEscapedString`: what is appended to the result. -/
def iniEscapedString (str : QString) : QByteArray :=
  let needsQuotes := str.any fun ch => ch = 0x3b || ch = 0x2c || ch = 0x3d
  let useCodec := !(atByteArray.isPrefixOf str || atVariant.isPrefixOf str
    || atDateTime.isPrefixOf str)
  let text := escapedText useCodec false none str
  if needsQuotes || text.head? = some 0x20 || text.getLast? = some 0x20 then
    0x22 :: text ++ [0x22]
  else text

/-- `iniEscapedStringList`: an empty list is written like no value. -/
def iniEscapedStringList (strs : List QString) : QByteArray :=
  if strs = [] then atInvalid.map UInt16.toUInt8
  else ((strs.map iniEscapedString).intersperse [0x2c, 0x20]).flatten

/-! ### Reading values -/

/-- `escapeCodes`. -/
def escapeCode (ch : UInt8) : Option UInt16 :=
  ([(0x61, 0x07), (0x62, 0x08), (0x66, 0x0c), (0x6e, 0x0a), (0x72, 0x0d), (0x74, 0x09), (0x76, 0x0b),
    (0x22, 0x22), (0x3f, 0x3f), (0x27, 0x27), (0x5c, 0x5c)] : List (UInt8 × UInt16)).lookup ch

/-- The variables of `iniUnescapedStringList`. -/
structure Unescaping where
  isStringList : Bool
  inQuotedString : Bool
  currentValueIsQuoted : Bool
  chopLimit : ℕ
  stringResult : QString
  stringListResult : List QString
  fromUtf8 : QUtf8.State
deriving DecidableEq, Repr

namespace Unescaping

def new : Unescaping where
  isStringList := false
  inQuotedString := false
  currentValueIsQuoted := false
  chopLimit := 0
  stringResult := []
  stringListResult := []
  fromUtf8 := QUtf8.State.new ⟨false, false, false⟩

/-- `iniChopTrailingSpaces`. -/
def chopTrailingSpaces (s : Unescaping) : Unescaping :=
  { s with
    stringResult := s.stringResult.take s.chopLimit
      ++ (s.stringResult.drop s.chopLimit).rdropWhile fun ch => ch = 0x20 || ch = 0x09 }

/-- The label `StNormal`. -/
def normal (s : Unescaping) : Unescaping :=
  { s with chopLimit := s.stringResult.length }

def append (s : Unescaping) (text : QString) : Unescaping :=
  { s with stringResult := s.stringResult ++ text }

/-- A comma ends a string of a list. -/
def endString (s : Unescaping) : Unescaping :=
  let s := if s.currentValueIsQuoted then s else s.chopTrailingSpaces
  { s with
    isStringList := true
    stringListResult := (if s.isStringList then s.stringListResult else []) ++ [s.stringResult]
    stringResult := []
    currentValueIsQuoted := false }

/-- The label `end`. -/
def finish (s : Unescaping) : Bool × QString × List QString :=
  (s.isStringList, s.stringResult,
    if s.isStringList then s.stringListResult ++ [s.stringResult] else s.stringListResult)

/-- `fromUtf8` of some octets. -/
def decode (s : Unescaping) (octets : QByteArray) : Unescaping :=
  let (units, fromUtf8) := QUtf8.convertToUnicode octets s.fromUtf8
  { s with stringResult := s.stringResult ++ units, fromUtf8 := fromUtf8 }

def isBlank (ch : UInt8) : Bool :=
  ch = 0x20 || ch = 0x09

def isNewline (ch : UInt8) : Bool :=
  ch = 0x0a || ch = 0x0d

/-- An octet that ends a run of ordinary ones. -/
def endsRun (ch : UInt8) : Bool :=
  ch = 0x5c || ch = 0x22 || ch = 0x2c

/-- The value of the digits that `digit` accepts, each of so many bits, as `char16_t`. -/
def escapeVal (digit : UInt8 → Option UInt16) (bits : UInt16) (digits : QByteArray) : UInt16 :=
  digits.foldl (fun n d => (n <<< bits) + (digit d).getD 0) 0

/-- The loop of `iniUnescapedStringList`. -/
def unescape (s : Unescaping) : QByteArray → Bool × QString × List QString
  | [] => (if s.currentValueIsQuoted then s else s.chopTrailingSpaces).finish
  | c :: str =>
    if c = 0x5c then
      match str with
      | [] => s.finish
      | ch :: str =>
        match escapeCode ch with
        | some code => unescape (s.append [code]).normal str
        | none =>
          if ch = 0x78 then
            let digits := str.takeWhile fun d => (fromHex d).isSome
            if str = [] then s.finish
            else if digits = [] then unescape s.normal str
            else
              let s := s.append [escapeVal fromHex 4 digits]
              if str.length = digits.length then s.finish
              else unescape s.normal (str.drop digits.length)
          else if (fromOct ch).isSome then
            let digits := str.takeWhile fun d => (fromOct d).isSome
            let s := s.append [escapeVal fromOct 3 (ch :: digits)]
            if str.length = digits.length then s.finish
            else unescape s.normal (str.drop digits.length)
          else if isNewline ch && str.head?.any (fun ch2 => isNewline ch2 && ch2 ≠ ch) then
            unescape s.normal (str.drop 1)
          else unescape s.normal str
    else if c = 0x22 then
      let s := { s with currentValueIsQuoted := true, inQuotedString := !s.inQuotedString }
      if s.inQuotedString then unescape s str
      else unescape s.normal (str.drop (str.takeWhile isBlank).length)
    else if c = 0x2c && !s.inQuotedString then
      unescape s.endString.normal (str.drop (str.takeWhile isBlank).length)
    else
      let run := str.takeWhile fun ch => !endsRun ch
      unescape (s.decode (c :: run)) (str.drop run.length)
termination_by str => str.length
decreasing_by
  all_goals
    try rw [List.length_drop]
    simp only [List.length_cons]
    omega

end Unescaping

/-- `iniUnescapedStringList`: whether the text is a list, the string and the list. -/
def iniUnescapedStringList (str : QByteArray) : Bool × QString × List QString :=
  Unescaping.unescape Unescaping.new.normal (str.drop (str.takeWhile Unescaping.isBlank).length)

/-! ### Lines -/

/-- The characters of `charTraits` that are `Space`. -/
def isSpace (ch : UInt8) : Bool :=
  ch = 0x09 || ch = 0x0a || ch = 0x0d || ch = 0x20

/-- The characters of `charTraits` that are `Special`. -/
def isSpecial (ch : UInt8) : Bool :=
  ch = 0x0a || ch = 0x0d || ch = 0x22 || ch = 0x3b || ch = 0x3d || ch = 0x5c

/-- What `readIniLine` finds: the place behind a line, where the line starts, and its first '='. -/
structure IniLine where
  dataPos : ℕ
  lineStart : ℕ
  equalsPos : Option ℕ
deriving DecidableEq, Repr

def IniLine.lineLen (line : IniLine) : ℕ :=
  line.dataPos - line.lineStart

/-- The first '=' that is not in quotes, with one at the place `i`. -/
def firstEquals (i : ℕ) (inQuotes : Bool) (equalsPos : Option ℕ) : Option ℕ :=
  if !inQuotes && equalsPos.isNone then some i else equalsPos

/-- The outer loop of `readIniLine`, at the place `i` of the data. -/
def scanLine (i lineStart : ℕ) (equalsPos : Option ℕ) (inQuotes : Bool) : QByteArray → IniLine
  | [] => ⟨i, lineStart, equalsPos⟩
  | ch :: rest =>
    if !isSpecial ch then scanLine (i + 1) lineStart equalsPos inQuotes rest
    else if ch = 0x3d then
      scanLine (i + 1) lineStart (firstEquals i inQuotes equalsPos) inQuotes rest
    else if ch = 0x0a || ch = 0x0d then
      if i = lineStart then scanLine (i + 1) (lineStart + 1) equalsPos inQuotes rest
      else if !inQuotes then ⟨i, lineStart, equalsPos⟩
      else scanLine (i + 1) lineStart equalsPos inQuotes rest
    else if ch = 0x5c then
      match rest with
      | [] => ⟨i + 1, lineStart, equalsPos⟩
      | [_] => ⟨i + 2, lineStart, equalsPos⟩
      | ch :: ch2 :: rest =>
        if (ch = 0x0a && ch2 = 0x0d) || (ch = 0x0d && ch2 = 0x0a) then
          scanLine (i + 3) lineStart equalsPos inQuotes rest
        else scanLine (i + 2) lineStart equalsPos inQuotes (ch2 :: rest)
    else if ch = 0x22 then scanLine (i + 1) lineStart equalsPos (!inQuotes) rest
    else if i = lineStart then
      let comment := rest.takeWhile fun ch => ch ≠ 0x0a && ch ≠ 0x0d
      let spaces := (rest.drop comment.length).takeWhile isSpace
      let skipped := comment.length + spaces.length
      scanLine (i + 1 + skipped) (i + 1 + skipped) equalsPos inQuotes (rest.drop skipped)
    else if !inQuotes then ⟨i, lineStart, equalsPos⟩
    else scanLine (i + 1) lineStart equalsPos inQuotes rest
termination_by data => data.length
decreasing_by
  all_goals
    try rw [List.length_drop]
    simp only [List.length_cons]
    omega

/-- `readIniLine`, where `rest` is the data from `dataPos` on. -/
def readIniLine (dataPos : ℕ) (rest : QByteArray) : IniLine :=
  let spaces := rest.takeWhile isSpace
  let lineStart := dataPos + spaces.length
  scanLine lineStart lineStart none false (rest.drop spaces.length)

theorem scanLine_bounds (i lineStart : ℕ) (equalsPos : Option ℕ) (inQuotes : Bool)
    (rest : QByteArray) :
  lineStart ≤ (scanLine i lineStart equalsPos inQuotes rest).lineStart
    ∧ i ≤ (scanLine i lineStart equalsPos inQuotes rest).dataPos
    ∧ (scanLine i lineStart equalsPos inQuotes rest).dataPos ≤ i + rest.length
  := by
  fun_induction scanLine i lineStart equalsPos inQuotes rest with
  | case12 lineStart equalsPos inQuotes c str _ _ _ _ _ comment spaces skipped ih =>
    have hcomment : comment.length ≤ str.length := (List.takeWhile_sublist _).length_le
    have hspaces : spaces.length ≤ (str.drop comment.length).length := (List.takeWhile_sublist _).length_le
    rw [List.length_drop] at hspaces ih
    rw [List.length_cons]
    omega
  | _ =>
    simp only [List.length_cons, List.length_nil] at *
    omega

/-- The lines that `readIniLine` finds, and what it finds where there is none left. -/
def iniLines (dataPos : ℕ) (rest : QByteArray) : List IniLine × IniLine :=
  let line := readIniLine dataPos rest
  if 0 < line.lineLen then
    let (lines, last) := iniLines line.dataPos (rest.drop (line.dataPos - dataPos))
    (line :: lines, last)
  else ([], line)
termination_by rest.length
decreasing_by
  have h_spaces := (List.takeWhile_sublist (l := rest) isSpace).length_le
  have h_bounds := scanLine_bounds (dataPos + (rest.takeWhile isSpace).length)
    (dataPos + (rest.takeWhile isSpace).length) none false
    (rest.drop (rest.takeWhile isSpace).length)
  rename_i h_len
  change 0 < (scanLine _ _ _ _ _).dataPos - (scanLine _ _ _ _ _).lineStart at h_len
  change (rest.drop ((scanLine _ _ _ _ _).dataPos - dataPos)).length < _
  rw [List.length_drop] at h_bounds ⊢
  omega

/-! ### Files -/

/-- The octets of a line. -/
def IniLine.text (line : IniLine) (data : QByteArray) : QByteArray :=
  (data.drop line.lineStart).take line.lineLen

/-- `[` and `]`. -/
def openBracket : UInt8 := 0x5b
def closeBracket : UInt8 := 0x5d

/-- `general`. -/
def general : QByteArray :=
  [0x67, 0x65, 0x6e, 0x65, 0x72, 0x61, 0x6c]

def toAsciiLower (ch : UInt8) : UInt8 :=
  if 0x41 ≤ ch && ch ≤ 0x5a then ch - 0x41 + 0x61 else ch

/-- `compare` with `Qt::CaseInsensitive`. -/
def equalsIgnoringCase (a b : QByteArray) : Bool :=
  a.map toAsciiLower = b.map toAsciiLower

/-- The variables of `readIniFile`. -/
structure FileReading where
  currentSection : QString
  currentSectionStart : ℕ
  unparsedIniSections : UnparsedSettingsMap
  ok : Bool

namespace FileReading

def new : FileReading where
  currentSection := []
  currentSectionStart := 0
  unparsedIniSections := OrderedMap.empty
  ok := true

/-- `FLUSH_CURRENT_SECTION`. -/
def flush (r : FileReading) (data : QByteArray) (lineStart : ℕ) : FileReading :=
  let sectionData := (r.unparsedIniSections.get? r.currentSection).getD []
  let sectionData := if sectionData = [] then [] else sectionData ++ [0x0a]
  { r with
    unparsedIniSections := r.unparsedIniSections.insert r.currentSection
      (sectionData ++ (data.take lineStart).drop r.currentSectionStart) }

/-- The name of a section, with what is between the brackets. -/
def sectionName (iniSection : QByteArray) : QString :=
  if equalsIgnoringCase iniSection general then []
  else if equalsIgnoringCase iniSection (0x25 :: general) then latin1 iniSection.tail ++ [0x2f]
  else iniUnescapedKey iniSection ++ [0x2f]

def readLine (data : QByteArray) (r : FileReading) (line : IniLine) : FileReading :=
  let text := line.text data
  if text.head? = some openBracket then
    let r := r.flush data line.lineStart
    { r with
      currentSection := sectionName
        (QByteArray.trimmed ((text.takeWhile fun ch => ch ≠ closeBracket).drop 1))
      currentSectionStart := line.dataPos
      ok := r.ok && text.contains closeBracket }
  else r

end FileReading

/-- `readIniFile`: the sections, and whether every one is well-formed. -/
def readIniFile (data : QByteArray) : UnparsedSettingsMap × Bool :=
  let data := if QUtf8.utf8bom.isPrefixOf data then data.drop 3 else data
  let (lines, last) := iniLines 0 data
  let r := (lines.foldl (FileReading.readLine data) FileReading.new).flush data last.lineStart
  (r.unparsedIniSections, r.ok)

/-- The value of a text in a file. -/
def readValue (value : QByteArray) : Value :=
  let (isStringList, strValue, strListValue) := iniUnescapedStringList value
  if isStringList then stringListToVariantList strListValue else .single (stringToVariant strValue)

/-- A line of `readIniSection`. -/
def readEntry (iniSection : QString) (data : QByteArray) (settings : ParsedSettingsMap × Bool)
    (line : IniLine) : ParsedSettingsMap × Bool :=
  let text := line.text data
  match line.equalsPos with
  | none => (settings.1, settings.2 && text.head? = some 0x3b)
  | some equalsPos =>
    let key := QByteArray.trimmed (text.take (equalsPos - line.lineStart))
    let value := text.drop (equalsPos - line.lineStart + 1)
    (settings.1.insert (iniSection ++ iniUnescapedKey key) (readValue value), settings.2)

/-- `readIniSection`. -/
def readIniSection (iniSection : QString) (data : QByteArray) (settingsMap : ParsedSettingsMap) :
    ParsedSettingsMap × Bool :=
  (iniLines 0 data).1.foldl (readEntry iniSection data) (settingsMap, true)

/-- `ensureAllSectionsParsed`. -/
def ensureAllSectionsParsed (unparsedIniSections : UnparsedSettingsMap) : ParsedSettingsMap :=
  unparsedIniSections.entries.foldl (fun settings e => (readIniSection e.1 e.2 settings).1)
    OrderedMap.empty

/-! ### Writing -/

abbrev IniMap : Type := OrderedMap QString (OrderedMap QString Value)

/-- The section of a key, and the key in it. -/
def splitKey (key : QString) : QString × QString :=
  if key.contains 0x2f then
    (key.takeWhile (· ≠ 0x2f), (key.dropWhile (· ≠ 0x2f)).tail)
  else ([], key)

def iniMap (map : ParsedSettingsMap) : IniMap :=
  map.entries.foldl (fun iniMap e =>
    let (iniSection, key) := splitKey e.1
    let keyMap := (iniMap.get? iniSection).getD OrderedMap.empty
    iniMap.insert iniSection (keyMap.insert key e.2)) OrderedMap.empty

/-- The name of a section in brackets. -/
def realSection (name : QString) : QByteArray :=
  let escaped := iniEscapedKey name
  if escaped = [] then openBracket :: 0x47 :: general.tail ++ [closeBracket]
  else if equalsIgnoringCase escaped general then
    openBracket :: 0x25 :: 0x47 :: general.tail ++ [closeBracket]
  else openBracket :: escaped ++ [closeBracket]

section

-- what `QDataStream` writes for a list
variable (stream : List QVariant → QByteArray)

def writtenValue : Value → QByteArray
  | .single v => iniEscapedString (variantToString v)
  | .stringList strs =>
    iniEscapedStringList (variantListToStringList (strs.map QVariant.string))
  | .variantList [v] => iniEscapedString (atVariant ++ latin1 (stream [v]) ++ [0x29])
  | .variantList list => iniEscapedStringList (variantListToStringList list)

/-- A key and its value. -/
def writtenEntry (e : QString × Value) : QByteArray :=
  iniEscapedKey e.1 ++ 0x3d :: writtenValue stream e.2 ++ [0x0a]

/-- A section and its keys. -/
def writtenSection (e : QString × OrderedMap QString Value) : QByteArray :=
  realSection e.1 ++ 0x0a :: e.2.entries.flatMap (writtenEntry stream)

/-- `writeIniFile` to a device that takes everything. -/
def writeIniFile (map : ParsedSettingsMap) : QByteArray :=
  (((iniMap map).entries.map (writtenSection stream)).intersperse [0x0a]).flatten

end

end QSettings
