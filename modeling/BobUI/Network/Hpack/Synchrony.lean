import BobUI.Network.Hpack.Representation

/-!
# The contexts of encoder and decoder stay synchronised

An encoder writes, for every header field it accepts, a representation of that field, and
its table becomes the one the representation makes.  As the decoder follows the same
representations, the tables at the two ends agree after every block, and the fields decoded
are those encoded.
-/

namespace HPack

/-- A field whose literals can be read back: the table takes it, the sizes of its strings
can be compared and written, and the strings are decoded to what was written. -/
structure HeaderField.Encodable (huffman : Huffman) (compressed : Bool) (f : HeaderField) :
    Prop where
  representable : f.Representable
  short : f.Short
  faithful : ∀ s ∈ [f.name, f.value], huffman.Faithful compressed s
  length_lt : ∀ s ∈ [f.name, f.value], literalLength huffman compressed s < 2 ^ 32

/-- The octets a field takes at most: three integers and two strings. -/
def fieldOctets (huffman : Huffman) (compressed : Bool) (f : HeaderField) : ℕ :=
  literalLength huffman compressed f.name + literalLength huffman compressed f.value + 18

/-- The octets a list of fields takes at most. -/
def headerOctets (huffman : Huffman) (compressed : Bool) (fields : List HeaderField) : ℕ :=
  weightOf (fieldOctets huffman compressed) fields

theorem headerOctets_append (huffman : Huffman) (compressed : Bool)
    (fields fields' : List HeaderField) :
  headerOctets huffman compressed (fields ++ fields')
    = headerOctets huffman compressed fields + headerOctets huffman compressed fields'
  := BoundedFifo.weightOf_append fields fields'

/-- A table of at most `2 ^ 32` octets has less than `2 ^ 32` fields. -/
theorem BoundedTable.fields_length_lt {b : BoundedTable} (h : b.queue.capacity < 2 ^ 32) :
  b.fields.length + 1 < 2 ^ 32
  := by
  have hcount : ∀ l : List HeaderField, 32 * l.length ≤ weightOf HeaderField.size l := by
    intro l
    induction l with
    | nil => simp
    | cons f l ih =>
      rw [List.length_cons, BoundedFifo.weightOf_cons, HeaderField.size]
      omega
  have hlength := hcount b.queue.entries
  have hfits := b.queue.fits
  have hstatic : staticPart.length = 61 := rfl
  rw [fields, List.length_append, hstatic]
  omega

namespace Encoder

variable {huffman : Huffman}

/-- The encoder's table holds the fields of `s`, and its index finds them. -/
structure Leads (e : Encoder) (s : BoundedTable) : Prop where
  refines : e.lookupTable.Refines s
  indexed : e.lookupTable.Indexed
  useIndex_eq : e.lookupTable.useIndex = true
  capacity_lt : s.queue.capacity < 2 ^ 32

variable {e : Encoder} {o : BitOStream} {f : HeaderField} {e' : Encoder} {o' : BitOStream}
  {b : BoundedTable} {fields : List HeaderField} {header : HttpHeader}

theorem Leads.call (h : e.Leads b) {c : TableCall} (hc : c.Short) :
  Leads { e with lookupTable := e.lookupTable.call c } (b.call c)
  := by
  obtain ⟨hrefines, huse⟩ := h.refines.call c
  constructor
  · apply hrefines
  · apply h.indexed.call h.refines.wf h.useIndex_eq hc
  · apply huse.trans h.useIndex_eq
  · cases c with
    | prependField name value =>
      simp only [BoundedTable.call]
      split_ifs
      · apply h.capacity_lt
      · apply h.capacity_lt
    | updateDynamicTableSize size =>
      simp only [BoundedTable.call]
      split_ifs
      · apply size.toNat_lt
      · apply h.capacity_lt
    | setMaxDynamicTableSize size => apply h.capacity_lt
    | clearDynamicTable => apply h.capacity_lt

/-- What a step of the encoder writes: representations of `fields`, which make its table
what it becomes, in `size` octets at most. -/
def Emits (huffman : Huffman) (e e' : Encoder) (o o' : BitOStream) (fields : List HeaderField)
    (size : ℕ) : Prop :=
  ∀ b buffer, e.Leads b → o = .new buffer →
    ∃ rs b', Representation.applyAll b rs = some (b', fields) ∧ e'.Leads b' ∧
      b'.maxCapacity = b.maxCapacity ∧
      (b.queue.capacity ≤ b.maxCapacity → b'.queue.capacity ≤ b'.maxCapacity) ∧
      e'.compressStrings = e.compressStrings ∧
      o' = .new (buffer ++ Representation.octetsAll huffman e.compressStrings rs) ∧
      (∀ r ∈ rs, r.Readable huffman e.compressStrings) ∧
      (Representation.octetsAll huffman e.compressStrings rs).length ≤ size

theorem Emits.refl (e : Encoder) (o : BitOStream) :
  Emits huffman e e o o [] 0
  := by
  intro b buffer h ho
  use [], b, rfl, h, rfl, id, rfl
  simp [ho, Representation.octetsAll]

theorem Emits.trans {e'' : Encoder} {o'' : BitOStream} {fields' : List HeaderField} {size size' : ℕ}
    (h : Emits huffman e e' o o' fields size)
    (h' : e'.compressStrings = e.compressStrings → Emits huffman e' e'' o' o'' fields' size') :
  Emits huffman e e'' o o'' (fields ++ fields') (size + size')
  := by
  intro b buffer hleads ho
  obtain ⟨rs, b', happly, hleads', hmax, hcapacity, hcompress, ho', hrs, hlength⟩ :=
    h b buffer hleads ho
  obtain ⟨rs', b'', happly', hleads'', hmax', hcapacity', hcompress', ho'', hrs', hlength'⟩ :=
    h' hcompress b' _ hleads' ho'
  rw [hcompress] at ho'' hrs' hlength'
  use rs ++ rs', b'', Representation.applyAll_append happly happly', hleads'', hmax'.trans hmax,
    fun hle => hcapacity' (hcapacity hle), hcompress'.trans hcompress
  have happend : Representation.octetsAll huffman e.compressStrings (rs ++ rs')
      = Representation.octetsAll huffman e.compressStrings rs
        ++ Representation.octetsAll huffman e.compressStrings rs' := List.flatMap_append
  rw [happend]
  constructor
  · rw [ho'', List.append_assoc]
  constructor
  · apply List.forall_mem_append.mpr ⟨hrs, hrs'⟩
  · rw [List.length_append]
    omega

/-- One representation. -/
theorem Emits.single {size : ℕ} (h : ∀ b buffer, e.Leads b → o = .new buffer →
      ∃ r b', Representation.apply b r = some (b', fields) ∧ e'.Leads b' ∧
        b'.maxCapacity = b.maxCapacity ∧
        (b.queue.capacity ≤ b.maxCapacity → b'.queue.capacity ≤ b'.maxCapacity) ∧
        e'.compressStrings = e.compressStrings ∧
        o' = .new (buffer ++ r.octets huffman e.compressStrings) ∧
        r.Readable huffman e.compressStrings ∧
        (r.octets huffman e.compressStrings).length ≤ size) :
  Emits huffman e e' o o' fields size
  := by
  intro b buffer hleads ho
  obtain ⟨r, b', happly, hleads', hmax, hcapacity, hcompress, ho', hr, hlength⟩ :=
    h b buffer hleads ho
  use [r], b', Representation.applyAll_singleton happly, hleads', hmax, hcapacity, hcompress
  have hoctets : Representation.octetsAll huffman e.compressStrings [r]
      = r.octets huffman e.compressStrings := by
    simp [Representation.octetsAll]
  rw [hoctets]
  use ho'
  constructor
  · intro r' hr'
    rw [List.mem_singleton.mp hr']
    apply hr
  · apply hlength

/-- A field that a table takes is prepended to it. -/
theorem Leads.prepend (h : e.Leads b) (hf : f.Representable) (hshort : f.Short) :
  ∃ b', b.prepend f = some (b', [f]) ∧
    Leads (e.prependLiteral .literalIncrementalIndexing f.name f.value) b' ∧
    b'.maxCapacity = b.maxCapacity ∧ b'.queue.capacity = b.queue.capacity
  := by
  use b.call (.prependField f.name f.value)
  constructor
  · rw [BoundedTable.prepend, if_pos hf]
  constructor
  · rw [prependLiteral, if_pos rfl]
    apply h.call (c := .prependField f.name f.value) hshort
  · have hf : HeaderField.Representable ⟨f.name, f.value⟩ := hf
    simp only [BoundedTable.call, if_pos hf]
    constructor
    · trivial
    · rfl

theorem encodeIndexedField_emits (huffman : Huffman) (o : BitOStream) {i : ℕ}
    (hi : ∀ b, e.Leads b → b.fields[i]? = some f) :
  Emits huffman e (e.encodeIndexedField o (i + 1)).2.1 o (e.encodeIndexedField o (i + 1)).2.2
    [f] 6
  := by
  apply Emits.single
  rintro b buffer h rfl
  have hlt : i + 1 < 2 ^ 32 := by
    have := BoundedTable.fields_length_lt h.capacity_lt
    obtain ⟨hlt, -⟩ := List.getElem?_eq_some_iff.mp (hi b h)
    omega
  refine ⟨.indexed (i + 1), b, ?_⟩
  constructor
  · simp [Representation.apply, hi b h]
  refine ⟨h, rfl, id, rfl, ?_⟩
  constructor
  · apply BitOStream.writeInteger_pattern buffer (by decide) (by decide) (by decide)
  constructor
  · constructor
    · rintro j (heq | ⟨value, heq⟩)
      · cases heq
        apply hlt
      · cases heq
    · simp [Representation.strings]
    · simp [Representation.strings]
  · apply integerOctets_length_le 7 1 hlt

theorem encodeLiteralFieldIndexed_emits {g : HeaderField} {i : ℕ}
    (hf : f.Encodable huffman e.compressStrings) (hi : ∀ b, e.Leads b → b.fields[i]? = some g)
    (hname : g.name = f.name) :
  let result := e.encodeLiteralFieldIndexed huffman o .literalIncrementalIndexing (i + 1) f.value
    e.compressStrings
  result.1 = true ∧
    Emits huffman e result.2.1 o result.2.2 [f] (fieldOctets huffman e.compressStrings f)
  := by
  use rfl
  apply Emits.single
  rintro b buffer h rfl
  obtain ⟨b', hprepend, hleads, hmax, hcapacity⟩ := h.prepend hf.representable hf.short
  have hlt : i + 1 < 2 ^ 32 := by
    have := BoundedTable.fields_length_lt h.capacity_lt
    obtain ⟨hlt, -⟩ := List.getElem?_eq_some_iff.mp (hi b h)
    omega
  have hfaithful := hf.faithful f.value (by simp)
  have hlength := hf.length_lt f.value (by simp)
  have hfound : (e.lookupTable.fieldName (i + 1)).getD [] = f.name := by
    have hfield := hi b h
    rw [BoundedTable.fields, ← h.refines.entries_eq, ← FieldLookupTable.field_eq] at hfield
    rw [FieldLookupTable.fieldName, hfield, Option.map_some, Option.getD_some, hname]
  refine ⟨.literalIndexed (i + 1) f.value, b', ?_⟩
  constructor
  · simp [Representation.apply, hi b h, hname, hprepend]
  constructor
  · simp only [encodeLiteralFieldIndexed, hfound]
    apply hleads
  refine ⟨hmax, fun hle => by omega, ?_⟩
  constructor
  · simp only [encodeLiteralFieldIndexed, prependLiteral, if_true]
  constructor
  · have hvalue : f.value.length < 2 ^ 32 := Nat.lt_trans hf.short.value_lt (by decide)
    simp only [encodeLiteralFieldIndexed, writeBitPattern]
    rw [BitOStream.writeInteger_pattern buffer (by decide) (by decide) (by decide),
      BitOStream.writeString_new _ hvalue hlength, List.append_assoc]
    rfl
  constructor
  · constructor
    · rintro j (heq | ⟨value, heq⟩)
      · cases heq
      · cases heq
        apply hlt
    · simpa [Representation.strings] using hfaithful
    · simpa [Representation.strings] using hlength
  · have h₁ := integerOctets_length_le 6 1 hlt
    have h₂ := stringOctets_length_le hfaithful hlength
    rw [Representation.octets, List.length_append, fieldOctets]
    omega

theorem encodeLiteralField_emits (hf : f.Encodable huffman e.compressStrings) {buffer : Octets}
    (ho : o = .new buffer) :
  let result := e.encodeLiteralField huffman o .literalIncrementalIndexing f.name f.value
    e.compressStrings
  result.1 = true ∧
    Emits huffman e result.2.1 o result.2.2 [f] (fieldOctets huffman e.compressStrings f)
  := by
  have haligned : ¬ (o.bitLength % 8 ≠ 0) := by
    simp [ho, BitOStream.bitLength, BitOStream.new]
  simp only [encodeLiteralField, if_neg haligned, true_and]
  apply Emits.single
  rintro b buffer h rfl
  obtain ⟨b', hprepend, hleads, hmax, hcapacity⟩ := h.prepend hf.representable hf.short
  have hname := hf.length_lt f.name (by simp)
  have hvalue := hf.length_lt f.value (by simp)
  refine ⟨.literal f.name f.value, b', hprepend, hleads, hmax, fun hle => by omega, ?_⟩
  constructor
  · simp only [prependLiteral, if_true]
  constructor
  · have hname' : f.name.length < 2 ^ 32 := Nat.lt_trans hf.short.name_lt (by decide)
    have hvalue' : f.value.length < 2 ^ 32 := Nat.lt_trans hf.short.value_lt (by decide)
    rw [writeBitPattern, BitOStream.writeInteger_pattern buffer (by decide) (by decide) (by decide),
      BitOStream.writeString_new _ hname' hname, BitOStream.writeString_new _ hvalue' hvalue,
      List.append_assoc, List.append_assoc]
    rfl
  constructor
  · constructor
    · rintro j (heq | ⟨value, heq⟩)
      · cases heq
      · cases heq
    · apply hf.faithful
    · apply hf.length_lt
  · have h₁ : (integerOctets 6 1 0).length ≤ 6 := integerOctets_length_le 6 1 (by decide)
    have h₂ := stringOctets_length_le (hf.faithful f.name (by simp)) hname
    have h₃ := stringOctets_length_le (hf.faithful f.value (by simp)) hvalue
    rw [Representation.octets, List.length_append, List.length_append, fieldOctets]
    omega

theorem Leads.fields_eq (h : e.Leads b) :
  b.fields = staticPart ++ e.lookupTable.entries
  := by
  rw [BoundedTable.fields, h.refines.entries_eq]

/-- `encodeHeaderField` writes one representation of its field. -/
theorem encodeHeaderField_emits (hf : f.Encodable huffman e.compressStrings) :
  Emits huffman e (e.encodeHeaderField huffman o f).2.1 o (e.encodeHeaderField huffman o f).2.2
    [f] (fieldOctets huffman e.compressStrings f)
  := by
  intro b buffer h ho
  rcases FieldLookupTable.indexOf_sound h.indexed h.refines.wf.toLayout h.useIndex_eq hf.short with
    hzero | ⟨i, hindex, hfound⟩
  · rcases FieldLookupTable.indexOfName_sound h.indexed h.refines.wf.toLayout f.name with
      hzero' | ⟨i, g, hindex, hfound, hname⟩
    · simp only [encodeHeaderField, hzero, hzero', ne_eq, not_true_eq_false, if_false]
      apply (encodeLiteralField_emits hf ho).2 b buffer h ho
    · simp only [encodeHeaderField, hzero, hindex, ne_eq, not_true_eq_false, if_false,
        Nat.succ_ne_zero, not_false_eq_true, if_true]
      apply (encodeLiteralFieldIndexed_emits hf _ hname).2 b buffer h ho
      intro b' h'
      rw [h'.fields_eq, hfound]
  · simp only [encodeHeaderField, hindex, ne_eq, Nat.succ_ne_zero, not_false_eq_true, if_true]
    obtain ⟨rs, b', happly, hleads, hmax, hcapacity, hcompress, ho', hrs, hlength⟩ :=
      encodeIndexedField_emits huffman o (fun b' h' => by
        rw [h'.fields_eq, hfound]) b buffer h ho
    use rs, b', happly, hleads, hmax, hcapacity, hcompress, ho', hrs
    rw [fieldOctets]
    omega

theorem encodeMethod_eq (hf : f.name = octets ":method") :
  e.encodeMethod huffman o f = e.encodeHeaderField huffman o f
  := by
  have hne : e.lookupTable.indexOfName f.name ≠ 0 := by
    rw [hf, FieldLookupTable.indexOfName_method]
    decide
  simp only [encodeMethod, encodeHeaderField, if_pos hne]

/-- A field is encoded in front of others. -/
theorem Emits.field {e'' : Encoder} {o'' : BitOStream} (hf : f.Encodable huffman e.compressStrings)
    (hresult : e.encodeHeaderField huffman o f = (true, e', o'))
    (h : e'.compressStrings = e.compressStrings →
      Emits huffman e' e'' o' o'' fields (headerOctets huffman e'.compressStrings fields)) :
  Emits huffman e e'' o o'' (f :: fields) (headerOctets huffman e.compressStrings (f :: fields))
  := by
  have hfirst := encodeHeaderField_emits (o := o) hf
  rw [hresult] at hfirst
  rw [headerOctets, BoundedFifo.weightOf_cons]
  apply hfirst.trans
  intro hcompress
  rw [hcompress] at h
  apply h rfl

/-- The loop over the fields that are not skipped writes these. -/
theorem encodeFields_emits {skip : Octets → Bool}
    (hheader : ∀ f ∈ header, f.Encodable huffman e.compressStrings)
    (h : encodeFields huffman skip header e o = (true, e', o')) :
  let fields := header.filter fun f => !skip f.name
  Emits huffman e e' o o' fields (headerOctets huffman e.compressStrings fields)
  := by
  intro fields
  induction header generalizing e o with
  | nil =>
    cases h
    apply Emits.refl
  | cons f header ih =>
    obtain ⟨hf, hheader⟩ := List.forall_mem_cons.mp hheader
    rw [encodeFields] at h
    simp only [fields, List.filter_cons]
    split_ifs at h with hskip
    · rw [if_neg (by simp [hskip])]
      apply ih hheader h
    · rw [if_pos (by simp [hskip])]
      rcases hresult : e.encodeHeaderField huffman o f with ⟨_ | _, e₁, o₁⟩
      · rw [hresult] at h
        cases h
      · rw [hresult] at h
        apply Emits.field hf hresult
        intro hcompress
        apply ih _ h
        rw [hcompress]
        apply hheader

theorem isRequestPseudoHeader_iff (name : Octets) :
  isRequestPseudoHeader name = true ↔ name = octets ":method" ∨ name ∈ headerName
  := by
  simp only [isRequestPseudoHeader, headerName, List.mem_cons, List.not_mem_nil, or_false,
    Bool.or_eq_true, decide_eq_true_eq, or_assoc]
  rw [or_left_comm (a := name = octets ":scheme")]

/-- The loop over the pseudo-header fields of a request writes these. -/
theorem encodeRequestPseudoFields_emits {methodFound : Bool} {headerFound : List Bool}
    {found' : Bool × List Bool} (hheader : ∀ f ∈ header, f.Encodable huffman e.compressStrings)
    (h : encodeRequestPseudoFields huffman header methodFound headerFound e o
      = (some found', e', o')) :
  Emits huffman e e' o o' (header.filter fun f => isRequestPseudoHeader f.name)
    (headerOctets huffman e.compressStrings
      (header.filter fun f => isRequestPseudoHeader f.name))
  := by
  induction header generalizing methodFound headerFound e o with
  | nil =>
    cases h
    apply Emits.refl
  | cons f header ih =>
    obtain ⟨hf, hheader⟩ := List.forall_mem_cons.mp hheader
    generalize hfields : (header.filter fun f => isRequestPseudoHeader f.name) = fields at ih
    rcases hresult : e.encodeHeaderField huffman o f with ⟨encoded, e₁, o₁⟩
    have hencoded : ∀ found headerFound, encoded = true →
        encodeRequestPseudoFields huffman header found headerFound e₁ o₁ = (some found', e', o') →
        Emits huffman e e' o o' (f :: fields) (headerOctets huffman e.compressStrings (f :: fields))
        := by
      rintro found headerFound rfl h
      apply Emits.field hf hresult
      intro hcompress
      apply ih _ h
      rw [hcompress]
      apply hheader
    rw [encodeRequestPseudoFields] at h
    rw [List.filter_cons, hfields]
    by_cases hstatus : f.name = octets ":status"
    · rw [if_pos hstatus] at h
      cases h
    rw [if_neg hstatus] at h
    by_cases hmethod : f.name = octets ":method"
    · rw [if_pos hmethod] at h
      rw [if_pos ((isRequestPseudoHeader_iff _).mpr (Or.inl hmethod))]
      cases methodFound with
      | true => cases h
      | false =>
        rw [encodeMethod_eq hmethod, hresult] at h
        cases encoded with
        | false => cases h
        | true => apply hencoded true headerFound rfl h
    rw [if_neg hmethod] at h
    by_cases hcookie : f.name = octets "cookie"
    · have hnot : ¬ isRequestPseudoHeader f.name = true := by
        rw [hcookie]
        decide
      rw [if_pos hcookie] at h
      rw [if_neg hnot]
      apply ih hheader h
    rw [if_neg hcookie] at h
    cases hj : headerName.findIdx? (· == f.name) with
    | none =>
      have hnot : ¬ isRequestPseudoHeader f.name = true := by
        rw [isRequestPseudoHeader_iff]
        rintro (heq | hmem)
        · apply hmethod heq
        · have := List.findIdx?_eq_none_iff.mp hj _ hmem
          simp at this
      rw [hj] at h
      rw [if_neg hnot]
      apply ih hheader h
    | some j =>
      have hpseudo : isRequestPseudoHeader f.name = true := by
        obtain ⟨hlt, heq, -⟩ := List.findIdx?_eq_some_iff_getElem.mp hj
        apply (isRequestPseudoHeader_iff _).mpr
        right
        rw [← beq_iff_eq.mp heq]
        apply List.getElem_mem
      simp only [hj] at h
      rw [if_pos hpseudo]
      by_cases hfound : headerFound[j]! = true
      · rw [if_pos hfound] at h
        cases h
      · rw [if_neg hfound, hresult] at h
        cases encoded with
        | false => cases h
        | true => apply hencoded methodFound (headerFound.set j true) rfl h

/-- The loop over the pseudo-header fields of a response writes `:status`. -/
theorem encodeResponsePseudoFields_emits {statusFound found : Bool}
    (hheader : ∀ f ∈ header, f.Encodable huffman e.compressStrings)
    (h : encodeResponsePseudoFields huffman header statusFound e o = (some found, e', o')) :
  let fields := header.filter fun f => f.name = octets ":status"
  Emits huffman e e' o o' fields (headerOctets huffman e.compressStrings fields)
  := by
  intro fields
  induction header generalizing statusFound e o with
  | nil =>
    cases h
    apply Emits.refl
  | cons f header ih =>
    obtain ⟨hf, hheader⟩ := List.forall_mem_cons.mp hheader
    rw [encodeResponsePseudoFields] at h
    simp only [fields, List.filter_cons]
    by_cases hpseudo : isRequestPseudoHeader f.name = true
    · rw [if_pos hpseudo] at h
      cases h
    rw [if_neg hpseudo] at h
    by_cases hstatus : f.name = octets ":status"
    · rw [if_pos hstatus] at h
      rw [if_pos (decide_eq_true hstatus)]
      cases statusFound with
      | true => cases h
      | false =>
        rcases hresult : e.encodeHeaderField huffman o f with ⟨_ | _, e₁, o₁⟩
        · rw [hresult] at h
          cases h
        · rw [hresult] at h
          apply Emits.field hf hresult
          intro hcompress
          apply ih _ h
          rw [hcompress]
          apply hheader
    · rw [if_neg hstatus] at h
      rw [if_neg (by simpa using hstatus)]
      apply ih hheader h

end Encoder

/-! ### Blocks -/

/-- A call that writes to a block. -/
inductive BlockCall where
  | sizeUpdate (newSize : UInt32)
  | request (header : HttpHeader)
  | response (header : HttpHeader)

namespace BlockCall

/-- The fields a call encodes: the pseudo-header fields in their order, then the others. -/
def fields : BlockCall → List HeaderField
  | .sizeUpdate _ => []
  | .request header =>
    (header.filter fun f => isRequestPseudoHeader f.name) ++
      header.filter fun f => !isRequestPseudoHeader f.name
  | .response header =>
    (header.filter fun f => f.name = octets ":status") ++
      header.filter fun f => !decide (f.name = octets ":status")

/-- The octets a call writes at most. -/
def size (huffman : Huffman) (compressed : Bool) (c : BlockCall) : ℕ :=
  headerOctets huffman compressed c.fields + 6

end BlockCall

namespace Encoder

variable {huffman : Huffman}

/-- The effect of a call on the encoder and the block. -/
def call (huffman : Huffman) (e : Encoder) (outputStream : BitOStream) :
    BlockCall → Bool × Encoder × BitOStream
  | .sizeUpdate newSize => e.encodeSizeUpdate outputStream newSize.toNat
  | .request header => e.encodeRequest huffman outputStream header
  | .response header => e.encodeResponse huffman outputStream header

/-- A block of calls, as far as they return `true`. -/
def encodeBlock (huffman : Huffman) : List BlockCall → Encoder → BitOStream →
    Bool × Encoder × BitOStream
  | [], e, outputStream => (true, e, outputStream)
  | c :: calls, e, outputStream =>
    match e.call huffman outputStream c with
    | (false, e, outputStream) => (false, e, outputStream)
    | (true, e, outputStream) => encodeBlock huffman calls e outputStream

variable {e e' : Encoder} {o o' : BitOStream}

theorem Emits.weaken {fields : List HeaderField} {size size' : ℕ}
    (h : Emits huffman e e' o o' fields size) (hle : size ≤ size') :
  Emits huffman e e' o o' fields size'
  := by
  intro b buffer hleads ho
  obtain ⟨rs, b', happly, hleads', hmax, hcapacity, hcompress, ho', hrs, hlength⟩ :=
    h b buffer hleads ho
  use rs, b', happly, hleads', hmax, hcapacity, hcompress, ho', hrs
  apply Nat.le_trans hlength hle

theorem encodeSizeUpdate_emits {newSize : UInt32}
    (h : e.encodeSizeUpdate o newSize.toNat = (true, e', o')) :
  Emits huffman e e' o o' [] 6
  := by
  apply Emits.single
  rintro b buffer hleads rfl
  rw [encodeSizeUpdate] at h
  rcases hupdate : e.lookupTable.updateDynamicTableSize newSize.toNat with ⟨_ | _, t⟩
  · rw [hupdate] at h
    cases h
  · rw [hupdate] at h
    obtain ⟨rfl, rfl⟩ := Prod.mk.inj (Prod.mk.inj h).2
    have hmax : newSize.toNat ≤ b.maxCapacity := by
      obtain ⟨-, -, -, ⟨-, hsize, -⟩ | ⟨hrefused, -⟩⟩ :=
        FieldLookupTable.updateDynamicTableSize_spec hleads.refines.wf newSize.toNat
      · rw [hleads.refines.max_eq] at hsize
        omega
      · rw [hupdate] at hrefused
        cases hrefused
    have hcall : e.lookupTable.call (.updateDynamicTableSize newSize) = t := by
      rw [FieldLookupTable.call, hupdate]
    have hleads' := hleads.call (c := .updateDynamicTableSize newSize) trivial
    rw [hcall] at hleads'
    use .sizeUpdate newSize, b.call (.updateDynamicTableSize newSize)
    constructor
    · rw [Representation.apply, if_pos hmax]
    use hleads'
    simp only [BoundedTable.call, if_pos (Or.inr hmax)]
    use trivial, fun _ => hmax, trivial
    constructor
    · apply BitOStream.writeInteger_pattern buffer (by decide) (by decide) (by decide)
    constructor
    · constructor
      · rintro j (heq | ⟨value, heq⟩)
        · cases heq
        · cases heq
      · simp [Representation.strings]
      · simp [Representation.strings]
    · apply integerOctets_length_le 5 1 newSize.toNat_lt

theorem encodeRequest_emits {header : HttpHeader}
    (hheader : ∀ f ∈ header, f.Encodable huffman e.compressStrings)
    (h : e.encodeRequest huffman o header = (true, e', o')) :
  Emits huffman e e' o o' (BlockCall.request header).fields
    (headerOctets huffman e.compressStrings (BlockCall.request header).fields)
  := by
  rw [encodeRequest, encodeRequestPseudoHeaders] at h
  by_cases hnil : header = []
  · rw [if_pos hnil] at h
    cases h
  rw [if_neg hnil] at h
  rcases hpseudo : encodeRequestPseudoFields huffman header false [false, false, false] e o with
    ⟨_ | ⟨methodFound, headerFound⟩, e₁, o₁⟩
  · rw [hpseudo] at h
    cases h
  · rw [hpseudo] at h
    cases hfound : methodFound && (headerFound.drop 1).all id with
    | false =>
      simp only [hfound] at h
      cases h
    | true =>
      simp only [hfound] at h
      rw [BlockCall.fields, headerOctets_append]
      apply (encodeRequestPseudoFields_emits hheader hpseudo).trans
      intro hcompress
      rw [← hcompress] at hheader ⊢
      apply encodeFields_emits hheader h

theorem encodeResponse_emits {header : HttpHeader}
    (hheader : ∀ f ∈ header, f.Encodable huffman e.compressStrings)
    (h : e.encodeResponse huffman o header = (true, e', o')) :
  Emits huffman e e' o o' (BlockCall.response header).fields
    (headerOctets huffman e.compressStrings (BlockCall.response header).fields)
  := by
  rw [encodeResponse, encodeResponsePseudoHeaders] at h
  by_cases hnil : header = []
  · rw [if_pos hnil] at h
    cases h
  rw [if_neg hnil] at h
  rcases hpseudo : encodeResponsePseudoFields huffman header false e o with
    ⟨_ | _ | _, e₁, o₁⟩
  · rw [hpseudo] at h
    cases h
  · rw [hpseudo] at h
    cases h
  · rw [hpseudo] at h
    rw [BlockCall.fields, headerOctets_append]
    apply (encodeResponsePseudoFields_emits hheader hpseudo).trans
    intro hcompress
    rw [← hcompress] at hheader ⊢
    apply encodeFields_emits hheader h

/-- A call that returns `true` writes the representations of its fields. -/
theorem call_emits {c : BlockCall} (hc : ∀ f ∈ c.fields, f.Encodable huffman e.compressStrings)
    (h : e.call huffman o c = (true, e', o')) :
  Emits huffman e e' o o' c.fields (c.size huffman e.compressStrings)
  := by
  cases c with
  | sizeUpdate newSize =>
    apply (encodeSizeUpdate_emits h).weaken
    apply Nat.le_add_left
  | request header =>
    apply (encodeRequest_emits _ h).weaken (Nat.le_add_right _ _)
    intro f hf
    apply hc
    rw [BlockCall.fields, List.mem_append, List.mem_filter, List.mem_filter]
    cases isRequestPseudoHeader f.name with
    | false => right; use hf; rfl
    | true => left; use hf
  | response header =>
    apply (encodeResponse_emits _ h).weaken (Nat.le_add_right _ _)
    intro f hf
    apply hc
    rw [BlockCall.fields, List.mem_append, List.mem_filter, List.mem_filter]
    by_cases hstatus : f.name = octets ":status"
    · left
      use hf
      simpa using hstatus
    · right
      use hf
      simpa using hstatus

/-- A block whose calls return `true` is a list of representations of the fields of all its
calls. -/
theorem encodeBlock_emits {calls : List BlockCall}
    (hcalls : ∀ c ∈ calls, ∀ f ∈ c.fields, f.Encodable huffman e.compressStrings)
    (h : encodeBlock huffman calls e o = (true, e', o')) :
  Emits huffman e e' o o' (calls.flatMap BlockCall.fields)
    (weightOf (BlockCall.size huffman e.compressStrings) calls)
  := by
  induction calls generalizing e o with
  | nil =>
    cases h
    apply Emits.refl
  | cons c calls ih =>
    obtain ⟨hc, hcalls⟩ := List.forall_mem_cons.mp hcalls
    rw [encodeBlock] at h
    rcases hresult : e.call huffman o c with ⟨_ | _, e₁, o₁⟩
    · rw [hresult] at h
      cases h
    · rw [hresult] at h
      rw [List.flatMap_cons, BoundedFifo.weightOf_cons]
      apply (call_emits hc hresult).trans
      intro hcompress
      rw [← hcompress] at hcalls ⊢
      apply ih hcalls h

end Encoder

/-! ### Synchrony -/

/-- The two tables hold the same dynamic entries in the same order, of the same size, in the
same capacity. -/
structure SameDynamicPart (t t' : FieldLookupTable) : Prop where
  entries_eq : t.entries = t'.entries
  dataSize_eq : t.dataSize = t'.dataSize
  tableCapacity_eq : t.tableCapacity = t'.tableCapacity

/-- Every block of `blocks`, as long as its calls return `true`, is decoded to the fields
that were encoded, and leaves the tables of the two ends the same. -/
def Synchronised (huffman : Huffman) : List (List BlockCall) → Encoder → Decoder → Prop
  | [], _, _ => True
  | calls :: blocks, e, d =>
    ∀ e' o, e.encodeBlock huffman calls (.new []) = (true, e', o) →
      ∃ d' s, d.decodeHeaderFields huffman (.new o.buffer) = some (true, d', s) ∧
        d'.header = calls.flatMap BlockCall.fields ∧
        SameDynamicPart e'.lookupTable d'.lookupTable ∧ Synchronised huffman blocks e' d'

/-- A block within the limits of the tables and of the streams: its fields have sizes that
are `unsigned`, strings whose sizes can be compared, and literals of less than `2 ^ 29`
octets altogether. -/
structure BlockFits (huffman : Huffman) (compressed : Bool) (calls : List BlockCall) : Prop where
  representable : ∀ c ∈ calls, ∀ f ∈ c.fields, f.Representable
  short : ∀ c ∈ calls, ∀ f ∈ c.fields, f.Short
  size_lt : weightOf (BlockCall.size huffman compressed) calls < 2 ^ 29

/-- The strings of the blocks are decoded to the octets that were written. -/
def LiteralsFaithful (huffman : Huffman) (compressed : Bool) (blocks : List (List BlockCall)) :
    Prop :=
  ∀ calls ∈ blocks, ∀ c ∈ calls, ∀ f ∈ c.fields, ∀ s ∈ [f.name, f.value],
    huffman.Faithful compressed s

/-- The fields of a block within the limits are encodable. -/
theorem BlockFits.encodable {huffman : Huffman} {compressed : Bool} {calls : List BlockCall}
    (h : BlockFits huffman compressed calls) {c : BlockCall} (hc : c ∈ calls) {f : HeaderField}
    (hf : f ∈ c.fields) (hliterals : ∀ s ∈ [f.name, f.value], huffman.Faithful compressed s) :
  f.Encodable huffman compressed
  := by
  have hsize := h.size_lt
  have hcall : c.size huffman compressed ≤ weightOf (BlockCall.size huffman compressed) calls :=
    BoundedFifo.le_weightOf_of_mem hc
  have hfield : fieldOctets huffman compressed f ≤ headerOctets huffman compressed c.fields :=
    BoundedFifo.le_weightOf_of_mem hf
  rw [BlockCall.size] at hcall
  rw [fieldOctets] at hfield
  constructor
  · apply h.representable c hc f hf
  · apply h.short c hc f hf
  · apply hliterals
  · intro s hs
    simp only [List.mem_cons, List.not_mem_nil, or_false] at hs
    rcases hs with rfl | rfl
    · omega
    · omega

/-- An encoder and a decoder whose tables hold the same fields stay synchronised over blocks
within the limits. -/
theorem synchronised_of_leads {huffman : Huffman} {compressed : Bool}
    {blocks : List (List BlockCall)} (hliterals : LiteralsFaithful huffman compressed blocks)
    (hfits : ∀ calls ∈ blocks, BlockFits huffman compressed calls) {e : Encoder} {d : Decoder}
    {b : BoundedTable} (he : e.Leads b) (hd : d.Follows b) (hcompress : e.compressStrings = compressed) :
  Synchronised huffman blocks e d
  := by
  induction blocks generalizing e d b with
  | nil => trivial
  | cons calls blocks ih =>
    obtain ⟨hcalls, hblocks⟩ := List.forall_mem_cons.mp hfits
    obtain ⟨hliteral, hliterals⟩ := List.forall_mem_cons.mp hliterals
    subst hcompress
    intro e' o hencode
    have hemits := Encoder.encodeBlock_emits
      (fun c hc f hf => hcalls.encodable hc hf (hliteral c hc f hf)) hencode
    obtain ⟨rs, b', happly, he', -, hcapacity, hcompress, rfl, hrs, hlength⟩ :=
      hemits b [] he rfl
    have hsize := hcalls.size_lt
    obtain ⟨d', s, hdecode, hd', hheader⟩ := hd.decodeHeaderFields happly hrs (by omega)
    use d', s, hdecode, hheader
    constructor
    · constructor
      · rw [he'.refines.entries_eq, hd'.refines.entries_eq]
      · rw [he'.refines.wf.dataSize_eq, hd'.refines.wf.dataSize_eq, he'.refines.entries_eq,
          hd'.refines.entries_eq]
      · rw [he'.refines.capacity_eq, hd'.refines.capacity_eq]
    · apply ih hliterals hblocks he' hd' hcompress

/-- Encoder and decoder of the same table size stay synchronised over blocks within the
limits. -/
theorem synchronised_of_fits {huffman : Huffman} (size : UInt32) (compressed : Bool)
    (blocks : List (List BlockCall)) (hliterals : LiteralsFaithful huffman compressed blocks)
    (hfits : ∀ calls ∈ blocks, BlockFits huffman compressed calls) :
  Synchronised huffman blocks (.new size.toNat compressed) (.new size.toNat)
  := by
  apply synchronised_of_leads hliterals hfits (b := .new size.toNat) _ _ rfl
  · constructor
    · apply FieldLookupTable.refines_new
    · apply FieldLookupTable.indexed_new
    · rfl
    · apply size.toNat_lt
  · constructor
    · apply FieldLookupTable.refines_new
    · apply Nat.le_refl

/-- A size update, a request that fills and evicts, and a response. -/
theorem synchronised_of_fits_requests :
  Synchronised ⟨fun s => 8 * s.length, id, some⟩
    [[.sizeUpdate 80, .request [⟨octets ":method", octets "PUT"⟩, ⟨octets ":scheme", octets "https"⟩,
        ⟨octets ":path", octets "/a"⟩, ⟨octets "b", octets "c"⟩]],
      [.response [⟨octets ":status", octets "418"⟩, ⟨octets "b", octets "c"⟩]]]
    (.new 4096 false) (.new 4096)
  := by
  apply synchronised_of_fits 4096 false
  · intro calls _ c _ f _ s _ h
    cases h
  · intro calls hcalls
    constructor
    · revert calls
      decide
    · revert calls
      decide
    · revert calls
      decide

/-! ### A field that the tables refuse -/

section Refused

variable {v : Octets} (hv : v.length = 2 ^ 32 - 39)
include hv

/-- The encoder writes the field, with the index of its name. -/
theorem encodeResponse_refused (huffman : Huffman) :
  (Encoder.new 4096 false).encodeBlock huffman [.response [⟨octets ":status", v⟩]] (.new [])
    = (true, .new 4096 false,
        .new (integerOctets 6 1 8 ++ stringOctets huffman false v))
  := by
  generalize hname : octets ":status" = name
  have hrefused : ¬ HeaderField.Representable ⟨name, v⟩ := by
    have hseven : (octets ":status").length = 7 := rfl
    simp only [← hname, HeaderField.Representable, HeaderField.size, hv, hseven]
    omega
  have hnot : staticPart[findInStaticPart ⟨name, v⟩ .nameAndValue]? ≠ some ⟨name, v⟩ := by
    intro hfound
    have hvalues : ∀ f ∈ staticPart, f.value.length ≤ 13 := by decide
    have := hvalues _ (List.mem_of_getElem? hfound)
    simp only [hv] at this
    omega
  have hindex : (FieldLookupTable.new 4096 true).indexOf name v = 0 := by
    simp only [FieldLookupTable.indexOf, if_neg hnot]
    rfl
  have hnameIndex : (FieldLookupTable.new 4096 true).indexOfName name = 8 := by
    rw [← hname]
    decide
  have hfieldName : (FieldLookupTable.new 4096 true).fieldName 8 = some name := by
    rw [← hname]
    decide
  have hprepend : (FieldLookupTable.new 4096 true).prependField name v = (false, .new 4096 true) :=
    FieldLookupTable.prependField_refused hrefused
  have hpseudo : isRequestPseudoHeader name = false := by
    rw [← hname]
    decide
  have hwrite : ((writeBitPattern .literalIncrementalIndexing (.new [])).writeInteger 8).writeString
      huffman v false = .new (integerOctets 6 1 8 ++ stringOctets huffman false v) := by
    have hlength : v.length < 2 ^ 32 := by omega
    have hliteral : literalLength huffman false v < 2 ^ 32 := hlength
    rw [writeBitPattern, BitPattern.literalIncrementalIndexing,
      BitOStream.writeInteger_pattern [] (by decide) (by decide) (by decide),
      BitOStream.writeString_new _ hlength hliteral]
    rfl
  simp only [Encoder.encodeBlock, Encoder.call, Encoder.encodeResponse, Encoder.new,
    Encoder.encodeResponsePseudoHeaders, Encoder.encodeResponsePseudoFields,
    Encoder.encodeHeaderField, Encoder.encodeLiteralFieldIndexed, Encoder.prependLiteral,
    Encoder.encodeFields, hname, hpseudo, hindex, hnameIndex, hfieldName, hprepend, hwrite,
    Option.getD_some]
  simp

/-- The decoder refuses it. -/
theorem decodeHeaderFields_refused (huffman : Huffman) :
  ∃ d' s, (Decoder.new 4096).decodeHeaderFields huffman
    (.new (integerOctets 6 1 8 ++ stringOctets huffman false v)) = some (false, d', s)
  := by
  have hfaithful : huffman.Faithful false v := by
    intro h
    cases h
  have hlength : literalLength huffman false v < 2 ^ 32 := by
    simp only [literalLength, Bool.false_eq_true, if_false, hv]
    decide
  have hone : (integerOctets 6 1 8).length = 1 := by decide
  generalize hdata : integerOctets 6 1 8 ++ stringOctets huffman false v = data
  obtain ⟨x, tail, hfirst, htop⟩ := integerOctets_first 6 1 (by decide) (by decide) 8
  have hdrop : data.drop 0 = x :: (tail ++ stringOctets huffman false v) := by
    rw [List.drop_zero, ← hdata, hfirst, List.cons_append]
  have hread := BitIStream.readInteger_integerOctets (s := ⟨data, 2, .noError⟩) (n := 6) (k := 0)
    (by decide) (by decide) (by decide) (by decide) rfl hdata.symm (fun _ => by decide)
  have hrest : data.drop (integerOctets 6 1 8).length = stringOctets huffman false v ++ [] := by
    rw [← hdata, List.drop_left, List.append_nil]
  have hvalue := BitIStream.readString_stringOctets
    (s := ⟨data, 8 * (0 + (integerOctets 6 1 8).length), .noError⟩) hfaithful rfl
    (by rw [Nat.zero_add]; apply hrest) hlength (by omega)
  have hrefused : ¬ HeaderField.Representable ⟨octets ":status", v⟩ := by
    have hseven : (octets ":status").length = 7 := rfl
    simp only [HeaderField.Representable, HeaderField.size, hv, hseven]
    omega
  have hfieldName : (FieldLookupTable.new 4096 false).fieldName 8 = some (octets ":status") := by
    decide
  have hprepend : (FieldLookupTable.new 4096 false).prependField (octets ":status") v
      = (false, .new 4096 false) := FieldLookupTable.prependField_refused hrefused
  use ⟨.new 4096 false, []⟩, ⟨data, 8 * (0 + (integerOctets 6 1 8).length
    + (stringOctets huffman false v).length), .noError⟩
  have hnext : Decoder.decodeNext huffman ⟨.new 4096 false, []⟩ ⟨data, 0, .noError⟩
      = some (false, ⟨.new 4096 false, []⟩, ⟨data, 8 * (0 + (integerOctets 6 1 8).length
          + (stringOctets huffman false v).length), .noError⟩) := by
    rw [Decoder.decodeNext_literal (k := 0) rfl hdrop htop]
    simp only [Decoder.decodeLiteralField, Nat.mul_zero, Nat.zero_add] at hread hvalue ⊢
    have hne : ¬ 8 = 0 := by decide
    simp only [hread, if_neg hne, hfieldName, hvalue, Decoder.processDecodedField, if_true,
      hprepend, Bool.not_false]
  simp only [Decoder.decodeHeaderFields, Decoder.decodeLoop, Decoder.new, BitIStream.new, hnext]

end Refused

/-- The field has a size of `2 ^ 32`, which is not an `unsigned`: `encodeResponse` returns
`true`, and the block it writes is not decoded. -/
theorem refused_field_not_synchronised :
  ¬ Synchronised ⟨fun s => 8 * s.length, id, some⟩
    [[.response [⟨octets ":status", List.replicate (2 ^ 32 - 39) 0⟩]]] (.new 4096 false) (.new 4096)
  := by
  have hv : (List.replicate (2 ^ 32 - 39) (0 : UInt8)).length = 2 ^ 32 - 39 := List.length_replicate
  generalize List.replicate (2 ^ 32 - 39) (0 : UInt8) = v at hv ⊢
  intro h
  obtain ⟨d', s, hdecode, -⟩ := h _ _ (encodeResponse_refused hv _)
  obtain ⟨d'', s', hrefused⟩ := decodeHeaderFields_refused hv ⟨fun s => 8 * s.length, id, some⟩
  have heq := hdecode.symm.trans hrefused
  cases (Prod.mk.inj (Option.some.inj heq)).1

end HPack
