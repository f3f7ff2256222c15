import BobUI.Network.Hpack.Codec
import BobUI.Network.Hpack.TableRefinement

/-!
# Field representations

What an HPACK block says, apart from its octets, is a list of representations, each acting
on the bounded table that both ends share.  The encoder writes the octets of a
representation of its field; the decoder reads a representation from its octets and does to
its table and its header what the representation says.
-/

namespace HPack

/-- A field representation, or a change of the table's size. -/
inductive Representation where
  | indexed (index : ℕ)
  | literalIndexed (nameIndex : ℕ) (value : Octets)
  | literal (name value : Octets)
  | sizeUpdate (size : UInt32)

/-- A field that is refused by no table is prepended. -/
def BoundedTable.prepend (s : BoundedTable) (f : HeaderField) :
    Option (BoundedTable × List HeaderField) :=
  if f.Representable then some (s.call (.prependField f.name f.value), [f]) else none

/-- All fields, the static ones first. -/
def BoundedTable.fields (s : BoundedTable) : List HeaderField :=
  staticPart ++ s.queue.entries

namespace Representation

/-- The table and the fields that result from a representation, if it is one of a table. -/
def apply (s : BoundedTable) : Representation → Option (BoundedTable × List HeaderField)
  | .indexed 0 => none
  | .indexed (i + 1) => s.fields[i]?.map fun f => (s, [f])
  | .literalIndexed 0 _ => none
  | .literalIndexed (i + 1) value => s.fields[i]?.bind fun f => s.prepend ⟨f.name, value⟩
  | .literal name value => s.prepend ⟨name, value⟩
  | .sizeUpdate size =>
    if size.toNat ≤ s.maxCapacity then some (s.call (.updateDynamicTableSize size), []) else none

variable (huffman : Huffman) (compressed : Bool)

/-- The octets of a representation. -/
def octets : Representation → Octets
  | .indexed index => integerOctets 7 1 index
  | .literalIndexed nameIndex value =>
    integerOctets 6 1 nameIndex ++ stringOctets huffman compressed value
  | .literal name value =>
    integerOctets 6 1 0 ++
      (stringOctets huffman compressed name ++ stringOctets huffman compressed value)
  | .sizeUpdate size => integerOctets 5 1 size.toNat

/-- The table and the fields that result from a list of representations. -/
def applyAll (s : BoundedTable) : List Representation → Option (BoundedTable × List HeaderField)
  | [] => some (s, [])
  | r :: rs => do
    let (s, fields) ← r.apply s
    let (s, fields') ← applyAll s rs
    some (s, fields ++ fields')

/-- The octets of a list of representations. -/
def octetsAll (rs : List Representation) : Octets :=
  rs.flatMap (octets huffman compressed)

/-- The strings of a representation. -/
def strings : Representation → List Octets
  | .literalIndexed _ value => [value]
  | .literal name value => [name, value]
  | _ => []

/-- The indices are of 32 bits, as are the sizes of the strings, which are decoded to what
was written. -/
structure Readable (r : Representation) : Prop where
  index_lt : ∀ i, (r = .indexed i ∨ ∃ value, r = .literalIndexed i value) → i < 2 ^ 32
  faithful : ∀ s ∈ r.strings, huffman.Faithful compressed s
  length_lt : ∀ s ∈ r.strings, literalLength huffman compressed s < 2 ^ 32

theorem applyAll_append {b b' b'' : BoundedTable} {rs rs' : List Representation}
    {fields fields' : List HeaderField} (h : applyAll b rs = some (b', fields))
    (h' : applyAll b' rs' = some (b'', fields')) :
  applyAll b (rs ++ rs') = some (b'', fields ++ fields')
  := by
  induction rs generalizing b fields with
  | nil =>
    obtain ⟨rfl, rfl⟩ := Prod.mk.inj (Option.some.inj h)
    apply h'
  | cons r rs ih =>
    obtain ⟨⟨c, first⟩, hfirst, hrest⟩ := Option.bind_eq_some_iff.mp h
    obtain ⟨⟨c', others⟩, hothers, heq⟩ := Option.bind_eq_some_iff.mp hrest
    obtain ⟨rfl, rfl⟩ := Prod.mk.inj (Option.some.inj heq)
    apply Option.bind_eq_some_iff.mpr
    use ⟨c, first⟩, hfirst
    apply Option.bind_eq_some_iff.mpr
    use ⟨b'', others ++ fields'⟩, ih hothers
    simp only [List.append_assoc]

theorem applyAll_singleton {b b' : BoundedTable} {r : Representation}
    {fields : List HeaderField} (h : r.apply b = some (b', fields)) :
  applyAll b [r] = some (b', fields)
  := by
  simp [applyAll, h]

theorem octets_length_pos (r : Representation) :
  0 < (r.octets huffman compressed).length
  := by
  have hpos : ∀ n flag v, 0 < (integerOctets n flag v).length := by
    intro n flag v
    rw [integerOctets]
    split_ifs
    · simp
    · simp
  cases r with
  | indexed index => apply hpos
  | literalIndexed nameIndex value =>
    rw [octets, List.length_append]
    apply Nat.add_pos_left (hpos _ _ _)
  | literal name value =>
    rw [octets, List.length_append]
    apply Nat.add_pos_left (hpos _ _ _)
  | sizeUpdate size => apply hpos

theorem length_le_octetsAll (rs : List Representation) :
  rs.length ≤ (octetsAll huffman compressed rs).length
  := by
  induction rs with
  | nil => simp
  | cons r rs ih =>
    have := octets_length_pos huffman compressed r
    rw [octetsAll] at ih
    rw [octetsAll, List.flatMap_cons, List.length_append, List.length_cons]
    omega

end Representation

/-! ### Reading a representation -/

/-- A pattern is recognised by the first bits of an octet. -/
theorem readBitPattern_octet {s : BitIStream} {pattern : BitPattern} {k : ℕ} {x : UInt8}
    {rest : Octets} (hoffset : s.offset = 8 * k) (hdrop : s.data.drop k = x :: rest)
    (hpos : 0 < pattern.bitLength) (hle : pattern.bitLength ≤ 8) :
  readBitPattern pattern s
    = if x.toNat >>> (8 - pattern.bitLength) = pattern.value then
        (true, { s with offset := 8 * k + pattern.bitLength })
      else (false, s)
  := by
  obtain ⟨hk, -, -⟩ := octet_of_drop hdrop
  have hin : ¬ (pattern.bitLength > s.bitLength ∨ s.bitLength - pattern.bitLength < 8 * k) := by
    rw [BitIStream.bitLength]
    omega
  have hlt : (x.toNat >>> (8 - pattern.bitLength)) <<< (8 - pattern.bitLength) < 256 := by
    have := x.toNat_lt
    rw [Nat.shiftRight_eq_div_pow, Nat.shiftLeft_eq]
    apply Nat.lt_of_le_of_lt (Nat.div_mul_le_self _ _) this
  have hback : (x.toNat >>> (8 - pattern.bitLength)) <<< (8 - pattern.bitLength)
      >>> (8 - pattern.bitLength) = x.toNat >>> (8 - pattern.bitLength) := by
    rw [Nat.shiftLeft_shiftRight]
  simp only [readBitPattern, hoffset, BitIStream.peekBits_octet hdrop hpos hle,
    Nat.mod_eq_of_lt hlt, hback, BitIStream.skipBits, if_neg hin, ne_eq, not_true_eq_false,
    if_false, ite_not]

namespace Decoder

variable {huffman : Huffman}

variable {d : Decoder} {b : BoundedTable} {s : BitIStream} {k : ℕ} {rest : Octets}
  {b' : BoundedTable} {fields : List HeaderField} {compressed : Bool}

theorem decodeNext_indexed {x : UInt8} (hoffset : s.offset = 8 * k)
    (hdrop : s.data.drop k = x :: rest) (hx : x.toNat >>> 7 = 1) :
  d.decodeNext huffman s = some (d.decodeIndexedField { s with offset := 8 * k + 1 })
  := by
  have hindexed : readBitPattern .indexed s = (true, { s with offset := 8 * k + 1 }) := by
    rw [readBitPattern_octet hoffset hdrop (by decide) (by decide)]
    apply if_pos hx
  simp only [decodeNext, hindexed]

theorem decodeNext_literal {x : UInt8} (hoffset : s.offset = 8 * k)
    (hdrop : s.data.drop k = x :: rest) (hx : x.toNat >>> 6 = 1) :
  d.decodeNext huffman s
    = some (d.decodeLiteralField huffman .literalIncrementalIndexing { s with offset := 8 * k + 2 })
  := by
  have hindexed : readBitPattern .indexed s = (false, s) := by
    rw [readBitPattern_octet hoffset hdrop (by decide) (by decide)]
    apply if_neg
    rw [Nat.shiftRight_eq_div_pow] at hx
    rw [Nat.shiftRight_eq_div_pow]
    simp only [BitPattern.indexed]
    omega
  have hliteral : readBitPattern .literalIncrementalIndexing s
      = (true, { s with offset := 8 * k + 2 }) := by
    rw [readBitPattern_octet hoffset hdrop (by decide) (by decide)]
    apply if_pos hx
  simp only [decodeNext, hindexed, hliteral]

theorem decodeNext_sizeUpdate {x : UInt8} (hoffset : s.offset = 8 * k)
    (hdrop : s.data.drop k = x :: rest) (hx : x.toNat >>> 5 = 1) :
  d.decodeNext huffman s = some (d.decodeSizeUpdate { s with offset := 8 * k + 3 })
  := by
  have hother : ∀ pattern : BitPattern, 0 < pattern.bitLength → pattern.bitLength ≤ 8 →
      x.toNat >>> (8 - pattern.bitLength) ≠ pattern.value → readBitPattern pattern s = (false, s) := by
    intro pattern hpos hle hne
    rw [readBitPattern_octet hoffset hdrop hpos hle, if_neg hne]
  have hsize : readBitPattern .sizeUpdate s = (true, { s with offset := 8 * k + 3 }) := by
    rw [readBitPattern_octet hoffset hdrop (by decide) (by decide)]
    apply if_pos hx
  rw [Nat.shiftRight_eq_div_pow] at hx
  have hindexed := hother .indexed (by decide) (by decide) (by
    rw [Nat.shiftRight_eq_div_pow]; simp only [BitPattern.indexed]; omega)
  have hliteral := hother .literalIncrementalIndexing (by decide) (by decide) (by
    rw [Nat.shiftRight_eq_div_pow]; simp only [BitPattern.literalIncrementalIndexing]; omega)
  have hno := hother .literalNoIndexing (by decide) (by decide) (by
    rw [Nat.shiftRight_eq_div_pow]; simp only [BitPattern.literalNoIndexing]; omega)
  have hnever := hother .literalNeverIndexing (by decide) (by decide) (by
    rw [Nat.shiftRight_eq_div_pow]; simp only [BitPattern.literalNeverIndexing]; omega)
  simp only [decodeNext, hindexed, hliteral, hno, hnever, hsize]

/-- The decoder's table holds the fields of `s`, and needs no change of its size. -/
structure Follows (d : Decoder) (s : BoundedTable) : Prop where
  refines : d.lookupTable.Refines s
  capacity_le : s.queue.capacity ≤ s.maxCapacity

theorem Follows.field_eq (h : d.Follows b) (i : ℕ) :
  d.lookupTable.field (i + 1) = b.fields[i]?
  := by
  rw [FieldLookupTable.field_eq, BoundedTable.fields, h.refines.entries_eq]

theorem Follows.not_lt (h : d.Follows b) :
  ¬ d.lookupTable.maxTableSize < d.lookupTable.tableCapacity
  := by
  rw [h.refines.max_eq, h.refines.capacity_eq]
  apply Nat.not_lt.mpr h.capacity_le

/-- A representable field is prepended to the decoder's table and to its header. -/
theorem Follows.processLiteral (h : d.Follows b) {f : HeaderField}
    (hprepend : b.prepend f = some (b', fields)) :
  ∃ d', d.processDecodedField .literalIncrementalIndexing f.name f.value = (true, d') ∧
    d'.Follows b' ∧ d'.header = d.header ++ fields
  := by
  rw [BoundedTable.prepend] at hprepend
  split_ifs at hprepend with hf
  obtain ⟨rfl, rfl⟩ := Prod.mk.inj (Option.some.inj hprepend)
  obtain ⟨hrefines, -⟩ := h.refines.call (.prependField f.name f.value)
  have haccepted : (d.lookupTable.prependField f.name f.value).1 = true :=
    FieldLookupTable.prependField_accepted hf
  have hfollows : Decoder.Follows ⟨(d.lookupTable.prependField f.name f.value).2, d.header⟩
      (b.call (.prependField f.name f.value)) := by
    constructor
    · apply hrefines
    · simp only [BoundedTable.call]
      split_ifs
      · apply h.capacity_le
      · apply h.capacity_le
  simp only [processDecodedField, if_true, haccepted, Bool.not_true, Bool.false_eq_true, if_false,
    if_neg hfollows.not_lt]
  use ⟨(d.lookupTable.prependField f.name f.value).2, d.header ++ [f]⟩, rfl
  constructor
  · constructor
    · apply hrefines
    · apply hfollows.capacity_le
  · rfl

theorem Follows.processIndexed (h : d.Follows b) (f : HeaderField) :
  d.processDecodedField .indexed f.name f.value = (true, { d with header := d.header ++ [f] })
  := by
  have hne : BitPattern.indexed ≠ .literalIncrementalIndexing := by decide
  simp only [processDecodedField, if_neg hne, Bool.not_true, Bool.false_eq_true, if_false,
    if_neg h.not_lt]

/-- The decoder reads a representation from its octets, and follows the table it makes. -/
theorem Follows.decodeNext (h : d.Follows b) {r : Representation}
    (happly : r.apply b = some (b', fields)) (hr : r.Readable huffman compressed)
    (hoffset : s.offset = 8 * k) (hdrop : s.data.drop k = r.octets huffman compressed ++ rest)
    (hfit : 8 * (k + (r.octets huffman compressed).length) < 2 ^ 32) :
  ∃ d', d.decodeNext huffman s
      = some (true, d', ⟨s.data, 8 * (k + (r.octets huffman compressed).length), .noError⟩) ∧
    d'.Follows b' ∧ d'.header = d.header ++ fields
  := by
  cases r with
  | indexed index =>
    cases index with
    | zero => cases happly
    | succ i =>
      obtain ⟨f, hf, heq⟩ := Option.map_eq_some_iff.mp happly
      obtain ⟨rfl, rfl⟩ := Prod.mk.inj heq
      have hi := hr.index_lt _ (Or.inl rfl)
      obtain ⟨x, octets, hfirst, htop⟩ :=
        integerOctets_first 7 1 (by decide) (by decide) (i + 1)
      have hread := BitIStream.readInteger_integerOctets
        (s := { s with offset := 8 * k + 1 }) (n := 7) (by decide) (by decide) (by decide) hi
        rfl hdrop (fun _ => hfit)
      use { d with header := d.header ++ [f] }
      constructor
      · rw [Representation.octets, hfirst] at hdrop
        rw [decodeNext_indexed hoffset hdrop htop]
        simp only [decodeIndexedField, hread, Nat.succ_ne_zero, if_false, h.field_eq, hf,
          h.processIndexed]
        rfl
      · use ⟨h.refines, h.capacity_le⟩
  | literalIndexed nameIndex value =>
    cases nameIndex with
    | zero => cases happly
    | succ i =>
      obtain ⟨g, hg, hprepend⟩ := Option.bind_eq_some_iff.mp happly
      obtain ⟨d', hprocess, hfollows, hheader⟩ := h.processLiteral hprepend
      have hi := hr.index_lt _ (Or.inr ⟨value, rfl⟩)
      obtain ⟨x, octets, hfirst, htop⟩ :=
        integerOctets_first 6 1 (by decide) (by decide) (i + 1)
      rw [Representation.octets, List.length_append] at hfit
      rw [Representation.octets, List.append_assoc] at hdrop
      have hread := BitIStream.readInteger_integerOctets
        (s := { s with offset := 8 * k + 2 }) (n := 6) (by decide) (by decide) (by decide) hi
        rfl hdrop (fun _ => by omega)
      have hrest : s.data.drop (k + (integerOctets 6 1 (i + 1)).length)
          = stringOctets huffman compressed value ++ rest := by
        rw [← List.drop_drop, hdrop, List.drop_left]
      have hvalue := BitIStream.readString_stringOctets
        (s := ⟨s.data, 8 * (k + (integerOctets 6 1 (i + 1)).length), .noError⟩)
        (hr.faithful value (by simp [Representation.strings])) rfl hrest
        (hr.length_lt value (by simp [Representation.strings])) (by omega)
      use d'
      constructor
      · rw [hfirst, List.cons_append] at hdrop
        rw [decodeNext_literal hoffset hdrop htop]
        simp only [decodeLiteralField, hread, Nat.succ_ne_zero, if_false,
          FieldLookupTable.fieldName, h.field_eq, hg, Option.map_some, hvalue, hprocess,
          Representation.octets, List.length_append, Nat.add_assoc]
      · use hfollows
  | literal name value =>
    obtain ⟨d', hprocess, hfollows, hheader⟩ := h.processLiteral happly
    obtain ⟨x, octets, hfirst, htop⟩ := integerOctets_first 6 1 (by decide) (by decide) 0
    have hzero : (integerOctets 6 1 0).length = 1 := by decide
    rw [Representation.octets, List.length_append, List.length_append] at hfit
    rw [Representation.octets, List.append_assoc, List.append_assoc] at hdrop
    have hread := BitIStream.readInteger_integerOctets
      (s := { s with offset := 8 * k + 2 }) (n := 6) (by decide) (by decide) (by decide)
      (by decide) rfl hdrop (fun _ => by omega)
    have hrest : s.data.drop (k + (integerOctets 6 1 0).length)
        = stringOctets huffman compressed name ++ (stringOctets huffman compressed value ++ rest)
        := by
      rw [← List.drop_drop, hdrop, List.drop_left]
    have hname := BitIStream.readString_stringOctets
      (s := ⟨s.data, 8 * (k + (integerOctets 6 1 0).length), .noError⟩)
      (hr.faithful name (by simp [Representation.strings])) rfl hrest
      (hr.length_lt name (by simp [Representation.strings])) (by omega)
    have hrest' : s.data.drop (k + (integerOctets 6 1 0).length
        + (stringOctets huffman compressed name).length)
        = stringOctets huffman compressed value ++ rest := by
      rw [← List.drop_drop, hrest, List.drop_left]
    have hvalue := BitIStream.readString_stringOctets
      (s := ⟨s.data, 8 * (k + (integerOctets 6 1 0).length
        + (stringOctets huffman compressed name).length), .noError⟩)
      (hr.faithful value (by simp [Representation.strings])) rfl hrest'
      (hr.length_lt value (by simp [Representation.strings])) (by omega)
    use d'
    constructor
    · rw [hfirst, List.cons_append] at hdrop
      rw [decodeNext_literal hoffset hdrop htop]
      simp only [decodeLiteralField, hread, if_true, hname, hvalue, hprocess]
      simp only [Representation.octets, List.length_append, Nat.add_assoc]
    · use hfollows
  | sizeUpdate size =>
    rw [Representation.apply] at happly
    split_ifs at happly with hmax
    obtain ⟨rfl, rfl⟩ := Prod.mk.inj (Option.some.inj happly)
    obtain ⟨x, octets, hfirst, htop⟩ :=
      integerOctets_first 5 1 (by decide) (by decide) size.toNat
    have hread := BitIStream.readInteger_integerOctets
      (s := { s with offset := 8 * k + 3 }) (n := 5) (by decide) (by decide) (by decide)
      size.toNat_lt rfl hdrop (fun _ => hfit)
    obtain ⟨hrefines, -⟩ := h.refines.call (.updateDynamicTableSize size)
    have haccepted : (d.lookupTable.updateDynamicTableSize size.toNat).1 = true := by
      obtain ⟨-, -, -, ⟨haccepted, -⟩ | ⟨-, -, hlarge, -⟩⟩ :=
        FieldLookupTable.updateDynamicTableSize_spec h.refines.wf size.toNat
      · apply haccepted
      · rw [h.refines.max_eq] at hlarge
        omega
    use { d with lookupTable := (d.lookupTable.updateDynamicTableSize size.toNat).2 }
    constructor
    · rw [Representation.octets, hfirst] at hdrop
      rw [decodeNext_sizeUpdate hoffset hdrop htop]
      simp only [decodeSizeUpdate, hread, haccepted]
      rfl
    constructor
    · constructor
      · apply hrefines
      · simp only [BoundedTable.call, if_pos (Or.inr hmax)]
        apply hmax
    · apply (List.append_nil _).symm

/-- At the end of the stream no pattern is next. -/
theorem decodeNext_end (hoffset : s.offset = s.bitLength) :
  d.decodeNext huffman s = none
  := by
  have hnone : ∀ pattern : BitPattern, 0 < pattern.bitLength →
      readBitPattern pattern s = (false, s) := by
    intro pattern hpos
    have hpeek : s.peekBits 8 s.offset pattern.bitLength = (0, 0) := by
      rw [BitIStream.peekBits, if_pos (Or.inl (Nat.le_of_eq hoffset.symm))]
    simp only [readBitPattern, hpeek]
    rw [if_pos (Nat.ne_of_lt hpos)]
  simp only [decodeNext, hnone .indexed (by decide), hnone .literalIncrementalIndexing (by decide),
    hnone .literalNoIndexing (by decide), hnone .literalNeverIndexing (by decide),
    hnone .sizeUpdate (by decide)]

/-- The decoder reads a list of representations to the end of its stream. -/
theorem Follows.decodeLoop (h : d.Follows b) {rs : List Representation}
    (happly : Representation.applyAll b rs = some (b', fields))
    (hrs : ∀ r ∈ rs, r.Readable huffman compressed) {turns : ℕ} (hoffset : s.offset = 8 * k)
    (hk : k ≤ s.data.length)
    (hdrop : s.data.drop k = Representation.octetsAll huffman compressed rs)
    (hfit : 8 * s.data.length < 2 ^ 32) (hturns : rs.length < turns) :
  ∃ d' s', d.decodeLoop huffman turns s = some (true, d', s') ∧ d'.Follows b' ∧
    d'.header = d.header ++ fields
  := by
  induction rs generalizing d b fields s k turns with
  | nil =>
    obtain ⟨turns, rfl⟩ := Nat.exists_eq_succ_of_ne_zero (Nat.ne_of_gt hturns)
    obtain ⟨rfl, rfl⟩ := Prod.mk.inj (Option.some.inj happly)
    have hend : k = s.data.length := by
      have := List.drop_eq_nil_iff.mp hdrop
      omega
    have hlast : s.offset = s.bitLength := by rw [hoffset, hend, BitIStream.bitLength]
    use d, s
    rw [Decoder.decodeLoop, decodeNext_end hlast, hlast]
    simp only [decide_true, List.append_nil, and_true, true_and]
    apply h
  | cons r rs ih =>
    obtain ⟨turns, rfl⟩ := Nat.exists_eq_succ_of_ne_zero (Nat.ne_zero_of_lt hturns)
    obtain ⟨⟨c, first⟩, hfirst, hrest⟩ := Option.bind_eq_some_iff.mp happly
    obtain ⟨⟨c', others⟩, hothers, heq⟩ := Option.bind_eq_some_iff.mp hrest
    obtain ⟨rfl, rfl⟩ := Prod.mk.inj (Option.some.inj heq)
    obtain ⟨hr, hrs⟩ := List.forall_mem_cons.mp hrs
    rw [Representation.octetsAll, List.flatMap_cons] at hdrop
    have hlength := congrArg List.length hdrop
    rw [List.length_drop, List.length_append] at hlength
    obtain ⟨d₁, hnext, hfollows, hheader⟩ := h.decodeNext hfirst hr hoffset hdrop (by omega)
    have hdrop' : s.data.drop (k + (r.octets huffman compressed).length)
        = Representation.octetsAll huffman compressed rs := by
      rw [← List.drop_drop, hdrop, List.drop_left]
      rfl
    obtain ⟨d', s', hloop, hfollows', hheader'⟩ := ih hfollows hothers hrs
      (s := ⟨s.data, 8 * (k + (r.octets huffman compressed).length), .noError⟩) rfl
      (show _ ≤ s.data.length by omega) hdrop' hfit (Nat.lt_of_succ_lt_succ hturns)
    use d', s'
    rw [Decoder.decodeLoop, hnext]
    use hloop, hfollows'
    rw [hheader', hheader, List.append_assoc]

/-- A block of representations is decoded to their fields. -/
theorem Follows.decodeHeaderFields (h : d.Follows b) {rs : List Representation}
    (happly : Representation.applyAll b rs = some (b', fields))
    (hrs : ∀ r ∈ rs, r.Readable huffman compressed)
    (hfit : 8 * (Representation.octetsAll huffman compressed rs).length < 2 ^ 32) :
  ∃ d' s', d.decodeHeaderFields huffman
      (.new (Representation.octetsAll huffman compressed rs)) = some (true, d', s') ∧
    d'.Follows b' ∧ d'.header = fields
  := by
  have hstart : Decoder.Follows { d with header := [] } b := ⟨h.refines, h.capacity_le⟩
  apply hstart.decodeLoop happly hrs (k := 0)
    (s := .new (Representation.octetsAll huffman compressed rs)) rfl (Nat.zero_le _) rfl hfit
  apply Nat.lt_succ_of_le (Representation.length_le_octetsAll huffman compressed rs)

end Decoder

end HPack
