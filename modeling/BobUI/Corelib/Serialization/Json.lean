import BobUI.Corelib.Text.Utf8Encode
import Mathlib.Algebra.Group.Int.Defs

/-!
# JSON values

The values that `QJsonValue` holds, and when they are equal.  A container keeps a string as the
octets of US-ASCII or of UTF-8, or as UTF-16; an object keeps its members in a sequence.

Floating point is a parameter: `DoubleText` has the type of the doubles, and the functions of
the library that print, read and convert them.
-/

/-- A string in a container. -/
inductive JsonString where
  | ascii (bytes : QByteArray)
  | utf8 (bytes : QByteArray)
  | utf16 (units : QString)
  deriving DecidableEq, Repr

/-- A value, with doubles of type `D`. -/
inductive JsonValue (D : Type) where
  | null
  | bool (b : Bool)
  | integer (n : ℤ)
  | double (d : D)
  | string (s : JsonString)
  | array (elements : List (JsonValue D))
  | object (members : List (JsonString × JsonValue D))

/-- Doubles, and what the library does with them. -/
structure DoubleText (D : Type) where
  /-- `qt_is_finite`. -/
  isFinite : D → Bool
  /-- `QByteArray::number(d, 'g', QLocale::FloatingPointShortest)`. -/
  number : D → QByteArray
  /-- `QByteArray::toDouble`, where it succeeds. -/
  toDouble : QByteArray → Option D
  /-- `convertDoubleTo<qint64>(d, &n, allow_precision_upgrade)`, where it succeeds. -/
  convertDoubleTo : D → Bool → Option ℤ
  /-- The conversion of an integer. -/
  ofInteger : ℤ → D
  /-- The comparison of two doubles. -/
  eq : D → D → Bool

namespace JsonString

/-- The string that is appended to a container as UTF-16, in US-ASCII where that is possible. -/
def ofString (s : QString) : JsonString :=
  if s.all (· < 0x80) then .ascii (s.map UInt16.toUInt8) else .utf16 s

/-- `QString::fromUtf8`: a byte order mark at the start is dropped. -/
def fromUtf8 (bytes : QByteArray) : QString :=
  let bytes := if QUtf8.utf8bom.isPrefixOf bytes then bytes.drop 3 else bytes
  let decoded := QUtf8.decode 0xfffd bytes
  decoded.units ++ List.replicate decoded.unfinished.length 0xfffd

/-- `QCborContainerPrivate::stringAt`. -/
def toString : JsonString → QString
  | ascii bytes => bytes.map UInt8.toUInt16
  | utf8 bytes => fromUtf8 bytes
  | utf16 units => units

/-! ### Equality -/

/-- The loop of `compareStringsInUtf8` for a string in UTF-8 and one in UTF-16: whether they are
equal.  A surrogate that is not part of a pair has no octets. -/
def equalInUtf8 (bytes : QByteArray) : QString → Bool
  | [] => bytes.isEmpty
  | u :: units =>
    if bytes.isEmpty then false
    else
      match _h : QUtf8.toUtf8 u units with
      | none => equalInUtf8 bytes units
      | some (octets, rest) =>
        if octets.isPrefixOf bytes then equalInUtf8 (bytes.drop octets.length) rest else false
termination_by units => units.length
decreasing_by
  · exact Nat.lt_succ_self _
  · exact Nat.lt_succ_of_le (QUtf8.toUtf8_length _h)

/-- The comparison of the data of two strings for equality. -/
def equal : JsonString → JsonString → Bool
  | utf16 a, utf16 b => a = b
  | utf16 a, ascii b | utf16 a, utf8 b | ascii b, utf16 a | utf8 b, utf16 a =>
    if a.isEmpty || b.isEmpty then a.isEmpty && b.isEmpty else equalInUtf8 b a
  | ascii a, ascii b | ascii a, utf8 b | utf8 a, ascii b | utf8 a, utf8 b => a = b

/-! ### Order -/

/-- The order of two sequences by their first difference; the shorter one comes first. -/
def compareData : List ℕ → List ℕ → ℤ
  | [], [] => 0
  | [], _ :: _ => -1
  | _ :: _, [] => 1
  | a :: as, b :: bs => if a = b then compareData as bs else (a : ℤ) - b

/-- `QUtf8Functions::nextUcs4FromUtf8`, with what is left of the octets. -/
def nextUcs4FromUtf8 (errorChar : ℕ) (b : UInt8) (src : QByteArray) : ℕ × QByteArray :=
  match QUtf8.fromUtf8 b src with
  | .char units length => (QUtf8.toUcs4 units, src.drop (length - 1))
  | _ => (errorChar, src)

/-- The next code point of a string in UTF-16, or the half of one. -/
def nextUcs4FromUtf16 (u : UInt16) : QString → ℕ × QString
  | [] => (u.toNat, [])
  | low :: units =>
    if QUtf8.isHighSurrogate u && QUtf8.isLowSurrogate low then
      (QUtf8.surrogateToUcs4 u low, units)
    else (u.toNat, low :: units)

/-- `QUtf8::compareUtf8` for a string in UTF-8 and one in UTF-16. -/
def compareUtf8 : QByteArray → QString → ℤ
  | [], [] => 0
  | [], _ :: _ => -1
  | _ :: _, [] => 1
  | b :: bytes, u :: units =>
    let next₁ := nextUcs4FromUtf8 0xfffd b bytes
    let next₂ := if 0x80 ≤ next₁.1 then nextUcs4FromUtf16 u units else (u.toNat, units)
    if next₁.1 ≠ next₂.1 then (next₁.1 : ℤ) - next₂.1 else compareUtf8 next₁.2 next₂.2
termination_by bytes => bytes.length
decreasing_by
  apply Nat.lt_succ_of_le
  unfold nextUcs4FromUtf8
  split
  · rw [List.length_drop]
    exact Nat.sub_le _ _
  · exact Nat.le_refl _

/-- The comparison that the parser sorts the keys of an object by. -/
def compareKeys : JsonString → JsonString → ℤ
  | utf16 a, utf16 b => compareData (a.map UInt16.toNat) (b.map UInt16.toNat)
  | utf16 a, ascii b | utf16 a, utf8 b => -compareUtf8 b a
  | ascii a, utf16 b | utf8 a, utf16 b => compareUtf8 a b
  | ascii a, ascii b | ascii a, utf8 b | utf8 a, ascii b | utf8 a, utf8 b =>
    compareData (a.map UInt8.toNat) (b.map UInt8.toNat)

end JsonString

namespace JsonValue

variable {D : Type} [DecidableEq D]

mutual

/-- The comparison of two elements of containers for equality; doubles are compared bit for
bit. -/
def equalElement : JsonValue D → JsonValue D → Bool
  | null, null => true
  | bool a, bool b => a = b
  | integer a, integer b => a = b
  | double a, double b => a = b
  | string a, string b => a.equal b
  | array a, array b => equalElements a b
  | object a, object b => equalMembers a b
  | _, _ => false
termination_by structural a => a

def equalElements : List (JsonValue D) → List (JsonValue D) → Bool
  | [], [] => true
  | a :: as, b :: bs => equalElement a b && equalElements as bs
  | _, _ => false
termination_by structural a => a

def equalMembers : List (JsonString × JsonValue D) → List (JsonString × JsonValue D) → Bool
  | [], [] => true
  | a :: as, b :: bs => equalMember a b && equalMembers as bs
  | _, _ => false
termination_by structural a => a

def equalMember : JsonString × JsonValue D → JsonString × JsonValue D → Bool
  | (k, a), (l, b) => k.equal l && equalElement a b
termination_by structural a => a

end

/-- The equality of two values, `operator==` of `QJsonValue`: numbers of two types are compared
as doubles. -/
def equal (F : DoubleText D) : JsonValue D → JsonValue D → Bool
  | integer a, double b => F.eq (F.ofInteger a) b
  | double a, integer b => F.eq a (F.ofInteger b)
  | double a, double b => F.eq a b
  | string a, string b => a.toString = b.toString
  | a, b => equalElement a b

end JsonValue
