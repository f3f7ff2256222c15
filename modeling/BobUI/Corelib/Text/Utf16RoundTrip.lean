import BobUI.Corelib.Text.Utf32Chunks

/-!
# Texts in UTF-16 and back

A text that is written with a byte order mark is read back by a decoder that detects the order, on
every host, whatever chunks the text and its octets come in.
-/

open QStringConverter Transducer
open QUtf32 (written)

namespace QUtf16

/-- `qToBigEndian` and `qToLittleEndian` of a code unit. -/
def octets (endian : DataEndianness) (ch : UInt16) : QByteArray :=
  if endian = .bigEndianness then [(ch >>> 8).toUInt8, ch.toUInt8]
  else [ch.toUInt8, (ch >>> 8).toUInt8]

/-- `QUtf16::convertFromUnicode`. -/
def convertFromUnicode (order : Endian) (input : QString) (s : State UInt8)
    (endian : DataEndianness) : QByteArray × State UInt8 :=
  let endian := if endian = .detectEndianness then order.host else endian
  let writeBom := !s.headerDone && s.flags.writeBom
  ((if writeBom then octets endian 0xfeff else []) ++ input.flatMap (octets endian),
    { s with headerDone := true, data := [] })

theorem octets_unit (e : DataEndianness) (ch : UInt16) :
  ∃ a b, octets e ch = [a, b] ∧ unit e a b = ch
  := by
  have hpair : ofCellRow ch.toUInt8 (ch >>> 8).toUInt8 = ch := by
    apply UInt16.toNat_inj.mp
    have hlt := ch.toNat_lt
    have hshift : ch.toNat >>> ((8 : UInt16).toNat % 16) = ch.toNat / 0x100 :=
      Nat.shiftRight_eq_div_pow ..
    rw [ofCellRow_toNat, UInt16.toNat_toUInt8, UInt16.toNat_toUInt8, UInt16.toNat_shiftRight,
      hshift]
    omega
  by_cases hbig : e = .bigEndianness
  · exact ⟨_, _, if_pos hbig, (if_pos hbig).trans hpair⟩
  · exact ⟨_, _, if_neg hbig, (if_neg hbig).trans hpair⟩

theorem units_octets (e : DataEndianness) (text : QString) :
  units e (text.flatMap (octets e)) = (text, [])
  := by
  induction text with
  | nil => rfl
  | cons ch text ih =>
    obtain ⟨a, b, hoctets, hunit⟩ := octets_unit e ch
    rw [List.flatMap_cons, hoctets, List.cons_append, List.cons_append, List.nil_append, units, ih,
      hunit]

theorem written_ne (order : Endian) (endian : DataEndianness) :
  written order endian ≠ .detectEndianness
  := by
  rw [written]
  cases endian <;> cases order <;> simp [Endian.host]

/-- Successive calls write the mark once, and all the code units. -/
theorem convertFromUnicode_chunks (order : Endian) (endian : DataEndianness) (s : State UInt8)
    (texts : List QString) :
  (runCalls (fun t l => convertFromUnicode order l t endian) { s with headerDone := true } texts).1
    = texts.flatten.flatMap (octets (written order endian))
  := by
  induction texts generalizing s with
  | nil => rfl
  | cons text texts ih =>
    rw [List.flatten_cons, List.flatMap_append, ← ih { s with data := [] }]
    rfl

theorem convertFromUnicode_new (order : Endian) (endian : DataEndianness) {flags : Flags}
    (hbom : flags.writeBom = true) (text : QString) (texts : List QString) :
  (runCalls (fun t l => convertFromUnicode order l t endian) (.new flags) (text :: texts)).1
    = octets (written order endian) 0xfeff
      ++ (text :: texts).flatten.flatMap (octets (written order endian))
  := by
  have hrest := convertFromUnicode_chunks order endian (.new flags) texts
  rw [List.flatten_cons, List.flatMap_append, ← hrest, ← List.append_assoc, runCalls,
    convertFromUnicode]
  simp only [State.new, hbom]
  rfl

/-- The mark tells the order, and is no text. -/
theorem convertToUnicode_mark (order : Endian) {flags : Flags}
    (hstateless : flags.stateless = false) (hinitial : flags.convertInitialBom = false)
    {e : DataEndianness} (he : e ≠ .detectEndianness) (text : QString) :
  outcome (convertToUnicode order (octets e 0xfeff ++ text.flatMap (octets e)) (.new flags)
    .detectEndianness) = (text, 0)
  := by
  have hdone : (State.new flags : State UInt8).bomDone = false := hinitial
  obtain ⟨a, b, hmark, hresolve, hunit⟩ : ∃ a b, octets e 0xfeff = [a, b] ∧
      resolve order .detectEndianness [a, b] = e ∧ unit e a b = 0xfeff := by
    cases e with
    | detectEndianness => exact absurd rfl he
    | bigEndianness => exact ⟨0xfe, 0xff, rfl, rfl, rfl⟩
    | littleEndianness => exact ⟨0xff, 0xfe, rfl, rfl, rfl⟩
  rw [hmark, List.cons_append, List.cons_append, List.nil_append,
    convertToUnicode_first (t := .new flags) hstateless rfl (.inl hdone), hdone,
    endianness_of_detect rfl, hresolve, hunit, units_octets]
  rfl

/-- A text that is written with a byte order mark is read back, on every host. -/
theorem utf16_roundTrip (order order' : Endian) (endian : DataEndianness) {flags flags' : Flags}
    (hbom : flags.writeBom = true) (hstateless : flags'.stateless = false)
    (hinitial : flags'.convertInitialBom = false) {text : QString} {texts : List QString}
    {chunks : List QByteArray} (hchunks : chunks.flatten =
      (runCalls (fun t l => convertFromUnicode order l t endian) (.new flags) (text :: texts)).1) :
  outcome (convertChunks order' flags' .detectEndianness chunks) = ((text :: texts).flatten, 0)
  := by
  have hknown : ¬(DataEndianness.detectEndianness = .detectEndianness
      ∧ flags'.convertInitialBom = true) := by
    rw [hinitial]
    exact fun h => absurd h.2 Bool.false_ne_true
  rw [convertFromUnicode_new order endian hbom] at hchunks
  rw [convertChunks, outcome_runCalls order' hstateless (readsAs_new hknown), hchunks]
  apply convertToUnicode_mark order' hstateless hinitial (written_ne order endian)

/-- An emoji whose halves and octets come one by one, from a big-endian host to a little-endian
one. -/
theorem utf16_roundTrip_emoji :
  outcome (convertChunks .littleEndian ⟨false, false, false, false⟩ .detectEndianness
    [[0xfe], [0xff, 0xd8], [0x3d, 0xde], [0x00]]) = ([[0xd83d], [0xde00]].flatten, 0)
  := @utf16_roundTrip .bigEndian .littleEndian .detectEndianness ⟨false, false, true, false⟩ _
    rfl rfl rfl _ _ _ rfl

end QUtf16
