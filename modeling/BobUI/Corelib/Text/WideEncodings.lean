import BobUI.Corelib.Text.Utf8Encode

/-!
# UTF-16 and UTF-32

The conversions of `QUtf16` and `QUtf32` that keep a state: decoding both, and encoding UTF-32.
Octets or a high surrogate at the end of a call wait for the next one.
-/

namespace QStringConverter

/-- `QSysInfo::Endian`, the byte orders of hosts. -/
inductive Endian where
  | bigEndian
  | littleEndian
deriving DecidableEq, Repr

/-- `DataEndianness`. -/
inductive DataEndianness where
  | detectEndianness
  | bigEndianness
  | littleEndianness
deriving DecidableEq, Repr

/-- The endianness of the host. -/
def Endian.host : Endian → DataEndianness
  | .bigEndian => .bigEndianness
  | .littleEndian => .littleEndianness

/-- The members of `QStringConverter::Flags`. -/
structure Flags where
  stateless : Bool
  convertInvalidToNull : Bool
  writeBom : Bool
  convertInitialBom : Bool
deriving DecidableEq, Repr

/-- The character that stands for malformed input. -/
def Flags.replacement (flags : Flags) : UInt16 :=
  if flags.convertInvalidToNull then 0 else 0xfffd

/-- `QStringConverter::State`.  `endian` and `data` are the two parts of `state_data`, and `data`
holds the `remainingChars` symbols that wait for others. -/
structure State (α : Type) where
  flags : Flags
  headerDone : Bool
  endian : DataEndianness
  data : List α
deriving DecidableEq, Repr

namespace State

variable {α : Type}

def new (flags : Flags) : State α where
  flags := flags
  headerDone := false
  endian := .detectEndianness
  data := []

/-- The endianness of a call: the state's, unless the argument says which. -/
def endianness (s : State α) (endian : DataEndianness) : DataEndianness :=
  if endian = .detectEndianness then s.endian else endian

/-- The initial byte order mark is behind, or is text. -/
def bomDone (s : State α) : Bool :=
  s.headerDone || s.flags.convertInitialBom

end State

end QStringConverter

open QStringConverter

/-! ### Decoding UTF-16 -/

namespace QUtf16

/-- `QChar(uchar, uchar)`: the cell and the row of a code unit. -/
def ofCellRow (cell row : UInt8) : UInt16 :=
  row.toUInt16 <<< 8 ||| cell.toUInt16

/-- A code unit with its octets swapped. -/
def swapped (ch : UInt16) : UInt16 :=
  (ch >>> 8) ||| ((ch &&& 0xff) <<< 8)

/-- The code unit that two octets hold. -/
def unit (endian : DataEndianness) (first second : UInt8) : UInt16 :=
  if endian = .bigEndianness then ofCellRow second first else ofCellRow first second

/-- `qFromBigEndian` and `qFromLittleEndian`: the code units that pairs of octets hold, and the
octet that is left. -/
def units (endian : DataEndianness) : QByteArray → QString × QByteArray
  | first :: second :: chars =>
    (unit endian first second :: (units endian chars).1, (units endian chars).2)
  | chars => ([], chars)

/-- The endianness that the first code unit tells. -/
def detect (order : Endian) (ch : UInt16) : DataEndianness :=
  if ch = 0xfffe then .bigEndianness
  else if ch = 0xfeff then .littleEndianness
  else order.host

/-- What `convertToUnicode` does behind the first code unit. -/
def finish (s : State UInt8) (endian : DataEndianness) (out : QString) (chars : QByteArray) :
    QString × State UInt8 :=
  let pairs := units endian chars
  if s.flags.stateless && pairs.2 ≠ [] then
    (out ++ pairs.1 ++ [s.flags.replacement], { s with endian := endian, data := [] })
  else (out ++ pairs.1, { s with endian := endian, data := pairs.2 })

/-- `QUtf16::convertToUnicode`. -/
def convertToUnicode (order : Endian) (input : QByteArray) (s : State UInt8)
    (endian : DataEndianness) : QString × State UInt8 :=
  let endian := s.endianness endian
  match s.data ++ input with
  | first :: second :: chars =>
    if !s.bomDone || s.data ≠ [] then
      let ch := ofCellRow first second
      let endian := if endian = .detectEndianness then detect order ch else endian
      let ch := if endian = .bigEndianness then swapped ch else ch
      finish { s with headerDone := true } endian
        (if s.bomDone || ch ≠ 0xfeff then [ch] else []) chars
    else finish s (if endian = .detectEndianness then order.host else endian) [] input
  -- there is no code unit to decode yet
  | data => ([], { s with data := data })

end QUtf16

/-! ### UTF-32 -/

namespace QUtf32

open QUtf8 (appendUcs4 isSurrogate isHighSurrogate isLowSurrogate surrogateToUcs4)

/-- `qFromBigEndian` and `qFromLittleEndian` of four octets. -/
def code (endian : DataEndianness) (a b c d : UInt8) : ℕ :=
  if endian = .bigEndianness then
    ((a.toNat * 0x100 + b.toNat) * 0x100 + c.toNat) * 0x100 + d.toNat
  else ((d.toNat * 0x100 + c.toNat) * 0x100 + b.toNat) * 0x100 + a.toNat

/-- The endianness that the first four octets tell. -/
def detect (order : Endian) (tuple : QByteArray) : DataEndianness :=
  if tuple = [0xff, 0xfe, 0, 0] then .littleEndianness
  else if tuple = [0, 0, 0xfe, 0xff] then .bigEndianness
  else order.host

/-- The loop of `convertToUnicode`, and the octets that are left. -/
def decodeTuples (endian : DataEndianness) : QByteArray → QString × QByteArray
  | a :: b :: c :: d :: chars =>
    (appendUcs4 (code endian a b c d) ++ (decodeTuples endian chars).1,
      (decodeTuples endian chars).2)
  | chars => ([], chars)

/-- What `convertToUnicode` does behind the first character. -/
def finish (s : State UInt8) (endian : DataEndianness) (out : QString) (chars : QByteArray) :
    QString × State UInt8 :=
  let tuples := decodeTuples endian chars
  if s.flags.stateless && tuples.2 ≠ [] then
    (out ++ tuples.1 ++ [0xfffd], { s with headerDone := true, endian := endian, data := [] })
  else (out ++ tuples.1, { s with headerDone := true, endian := endian, data := tuples.2 })

/-- `QUtf32::convertToUnicode`. -/
def convertToUnicode (order : Endian) (input : QByteArray) (s : State UInt8)
    (endian : DataEndianness) : QString × State UInt8 :=
  let endian := s.endianness endian
  match s.data ++ input with
  | a :: b :: c :: d :: chars =>
    if !s.bomDone || endian = .detectEndianness || s.data ≠ [] then
      let endian := if endian = .detectEndianness then detect order [a, b, c, d] else endian
      let code := code endian a b c d
      finish s endian (if s.bomDone || code ≠ 0xfeff then appendUcs4 code else []) chars
    else finish s endian [] input
  -- there is no character to decode yet
  | data => ([], { s with data := data })

/-- `qToBigEndian` and `qToLittleEndian`. -/
def octets (endian : DataEndianness) (ucs4 : ℕ) : QByteArray :=
  if endian = .bigEndianness then
    [UInt8.ofNat (ucs4 / 0x1000000), UInt8.ofNat (ucs4 / 0x10000), UInt8.ofNat (ucs4 / 0x100),
      UInt8.ofNat ucs4]
  else
    [UInt8.ofNat ucs4, UInt8.ofNat (ucs4 / 0x100), UInt8.ofNat (ucs4 / 0x10000),
      UInt8.ofNat (ucs4 / 0x1000000)]

/-- The label `decode_surrogate`: the character that starts with `ch`, unless it waits for its
second half, and the code units behind it. -/
def decodeSurrogate (flags : Flags) (ch : UInt16) : QString → Option ℕ × QString
  | [] => (if flags.stateless then some flags.replacement.toNat else none, [])
  | low :: uc =>
    if isLowSurrogate low then (some (surrogateToUcs4 ch low), uc)
    else (some flags.replacement.toNat, low :: uc)

theorem decodeSurrogate_length (flags : Flags) (ch : UInt16) (uc : QString) :
  (decodeSurrogate flags ch uc).2.length ≤ uc.length
  := by
  cases uc with
  | nil => exact Nat.le_refl 0
  | cons low uc =>
    rw [decodeSurrogate]
    split
    · exact Nat.le_succ _
    · exact Nat.le_refl _

/-- One round of the loop of `convertFromUnicode`, which reads `ch` first. -/
def decodeUnit (flags : Flags) (ch : UInt16) (uc : QString) : Option ℕ × QString :=
  if !isSurrogate ch.toNat then (some ch.toNat, uc)
  else if isHighSurrogate ch then decodeSurrogate flags ch uc
  else (some flags.replacement.toNat, uc)

theorem decodeUnit_rest {flags : Flags} {ch : UInt16} {uc rest : QString} {ucs4 : Option ℕ}
    (h : decodeUnit flags ch uc = (ucs4, rest)) :
  rest.length ≤ uc.length
  := by
  have hrest : rest = (decodeUnit flags ch uc).2 := by rw [h]
  rw [hrest, decodeUnit]
  split
  · exact Nat.le_refl _
  · split
    · exact decodeSurrogate_length flags ch uc
    · exact Nat.le_refl _

/-- The loop of `convertFromUnicode`, and the high surrogate that waits at the end. -/
def encodeUnits (flags : Flags) (endian : DataEndianness) : QString → QByteArray × QString
  | [] => ([], [])
  | ch :: uc =>
    match _h : decodeUnit flags ch uc with
    | (none, _) => ([], [ch])
    | (some ucs4, rest) =>
      (octets endian ucs4 ++ (encodeUnits flags endian rest).1, (encodeUnits flags endian rest).2)
termination_by uc => uc.length
decreasing_by all_goals exact Nat.lt_succ_of_le (decodeUnit_rest _h)

/-- `QUtf32::convertFromUnicode`. -/
def convertFromUnicode (order : Endian) (input : QString) (s : State UInt16)
    (endian : DataEndianness) : QByteArray × State UInt16 :=
  let endian := if endian = .detectEndianness then order.host else endian
  let writeBom := !s.headerDone && s.flags.writeBom
  let out := if writeBom then octets endian 0xfeff else []
  let s := { s with headerDone := s.headerDone || writeBom }
  match s.data with
  | [ch] =>
    match decodeSurrogate s.flags ch input with
    | (none, _) => (out, s)
    | (some ucs4, rest) =>
      (out ++ octets endian ucs4 ++ (encodeUnits s.flags endian rest).1,
        { s with data := (encodeUnits s.flags endian rest).2 })
  | _ =>
    (out ++ (encodeUnits s.flags endian input).1, { s with data := (encodeUnits s.flags endian input).2 })

end QUtf32
