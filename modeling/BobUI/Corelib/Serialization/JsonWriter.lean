import BobUI.Corelib.Serialization.Json

/-!
# Writing JSON

The writer of `qjsonwriter.cpp`.  A string is written in UTF-8; the control characters, the
quotation mark, the backslash, and the surrogates that are not part of a pair are escaped.
-/

namespace JsonWriter

def quote : UInt8 := 0x22

def backslash : UInt8 := 0x5c

def hexdig (u : ℕ) : UInt8 :=
  if u < 0xa then UInt8.ofNat (0x30 + u) else UInt8.ofNat (0x61 + u - 0xa)

/-- The escape sequence of a code unit by its hexadecimal digits. -/
def escapedUnit (u : UInt16) : QByteArray :=
  [backslash, 0x75, hexdig (u.toNat >>> 12 &&& 0xf), hexdig (u.toNat >>> 8 &&& 0xf),
    hexdig (u.toNat >>> 4 &&& 0xf), hexdig (u.toNat &&& 0xf)]

/-- The escape sequence of a control character, the quotation mark or the backslash. -/
def escapedControl (u : UInt16) : QByteArray :=
  if u = 0x22 then [backslash, quote]
  else if u = 0x5c then [backslash, backslash]
  else if u = 0x8 then [backslash, 0x62]
  else if u = 0xc then [backslash, 0x66]
  else if u = 0xa then [backslash, 0x6e]
  else if u = 0xd then [backslash, 0x72]
  else if u = 0x9 then [backslash, 0x74]
  else [backslash, 0x75, 0x30, 0x30, hexdig (u.toNat >>> 4), hexdig (u.toNat &&& 0xf)]

def escapedString : QString → QByteArray
  | [] => []
  | u :: src =>
    if u < 0x80 then
      if u < 0x20 || u = 0x22 || u = 0x5c then escapedControl u ++ escapedString src
      else u.toUInt8 :: escapedString src
    else
      match _h : QUtf8.toUtf8 u src with
      | some (bytes, src) => bytes ++ escapedString src
      | none => escapedUnit u ++ escapedString src
termination_by src => src.length
decreasing_by
  · exact Nat.lt_succ_self _
  · exact Nat.lt_succ_self _
  · exact Nat.lt_succ_of_le (QUtf8.toUtf8_length _h)
  · exact Nat.lt_succ_self _

/-- The decimal digits of a natural number. -/
def digits (n : ℕ) : QByteArray :=
  if n < 10 then [UInt8.ofNat (0x30 + n)] else digits (n / 10) ++ [UInt8.ofNat (0x30 + n % 10)]

/-- `QByteArray::number`. -/
def number (n : ℤ) : QByteArray :=
  if n < 0 then 0x2d :: digits n.natAbs else digits n.natAbs

def spaces (n : ℕ) : QByteArray :=
  List.replicate n 0x20

def lineFeed (compact : Bool) : QByteArray :=
  if compact then [] else [0x0a]

def nullText : QByteArray := [0x6e, 0x75, 0x6c, 0x6c]

def trueText : QByteArray := [0x74, 0x72, 0x75, 0x65]

def falseText : QByteArray := [0x66, 0x61, 0x6c, 0x73, 0x65]

variable {D : Type} (F : DoubleText D) (compact : Bool)

mutual

def valueContentToJson : JsonValue D → (indent : ℕ) → QByteArray
  | .null, _ => nullText
  | .bool true, _ => trueText
  | .bool false, _ => falseText
  | .integer n, _ => number n
  | .double d, _ => if F.isFinite d then F.number d else nullText
  | .string s, _ => quote :: escapedString s.toString ++ [quote]
  | .array elements, indent =>
    (0x5b :: lineFeed compact)
      ++ arrayContentToJson elements (indent + if compact then 0 else 1)
      ++ spaces (4 * indent) ++ [0x5d]
  | .object members, indent =>
    (0x7b :: lineFeed compact)
      ++ objectContentToJson members (indent + if compact then 0 else 1)
      ++ spaces (4 * indent) ++ [0x7d]
termination_by structural v => v

def arrayContentToJson : List (JsonValue D) → (indent : ℕ) → QByteArray
  | [], _ => []
  | [v], indent =>
    spaces (4 * indent) ++ valueContentToJson v indent ++ lineFeed compact
  | v :: w :: elements, indent =>
    spaces (4 * indent) ++ valueContentToJson v indent ++ (0x2c :: lineFeed compact)
      ++ arrayContentToJson (w :: elements) indent
termination_by structural elements => elements

def objectContentToJson : List (JsonString × JsonValue D) → (indent : ℕ) → QByteArray
  | [], _ => []
  | [m], indent => memberToJson m indent ++ lineFeed compact
  | m :: n :: members, indent =>
    memberToJson m indent ++ (0x2c :: lineFeed compact)
      ++ objectContentToJson (n :: members) indent
termination_by structural members => members

/-- One turn of the loop of `objectContentToJson`. -/
def memberToJson : JsonString × JsonValue D → (indent : ℕ) → QByteArray
  | (key, v), indent =>
    spaces (4 * indent) ++ quote :: escapedString key.toString
      ++ (if compact then [quote, 0x3a] else [quote, 0x3a, 0x20]) ++ valueContentToJson v indent
termination_by structural m => m

end

def isContainer : JsonValue D → Bool
  | .array _ | .object _ => true
  | _ => false

/-- `Writer::valueToJson`, which `QJsonValue::toJson` calls without an indentation. -/
def valueToJson (v : JsonValue D) (indent : ℕ) : QByteArray :=
  valueContentToJson F compact v indent
    ++ if !compact && isContainer v then [0x0a] else []

end JsonWriter
