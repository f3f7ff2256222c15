import BobUI.Network.Hpack.BitStreams

/-!
# The HPACK encoder and decoder

`Encoder` and `Decoder` of `hpack.cpp`.  A function that returns `false` may have changed
the table and written octets before, so it returns these too.
-/

namespace HPack

/-- A list of header fields. -/
abbrev HttpHeader : Type := List HeaderField

/-- The bits a field representation begins with. -/
structure BitPattern where
  value : ℕ
  bitLength : ℕ
deriving DecidableEq

namespace BitPattern

def indexed : BitPattern := ⟨1, 1⟩

def literalIncrementalIndexing : BitPattern := ⟨1, 2⟩

def literalNoIndexing : BitPattern := ⟨0, 4⟩

def literalNeverIndexing : BitPattern := ⟨1, 4⟩

def sizeUpdate : BitPattern := ⟨1, 3⟩

end BitPattern

def writeBitPattern (pattern : BitPattern) (outputStream : BitOStream) : BitOStream :=
  outputStream.writeBits pattern.value pattern.bitLength

/-- `read_bit_pattern`: whether the pattern is next, and the stream past it if so. -/
def readBitPattern (pattern : BitPattern) (inputStream : BitIStream) : Bool × BitIStream :=
  let (bitsRead, chunk) := inputStream.peekBits 8 inputStream.offset pattern.bitLength
  if bitsRead ≠ pattern.bitLength then (false, inputStream)
  else if chunk >>> (8 - bitsRead) ≠ pattern.value then (false, inputStream)
  else (true, (inputStream.skipBits pattern.bitLength).2)

def isRequestPseudoHeader (name : Octets) : Bool :=
  name = octets ":method" || name = octets ":scheme" || name = octets ":authority" ||
    name = octets ":path"

/-- The encoder. -/
structure Encoder where
  lookupTable : FieldLookupTable
  compressStrings : Bool

namespace Encoder

/-- The encoder with a table of the given size. -/
def new (size : ℕ) (compress : Bool) : Encoder :=
  ⟨.new size true, compress⟩

def encodeSizeUpdate (e : Encoder) (outputStream : BitOStream) (newSize : ℕ) :
    Bool × Encoder × BitOStream :=
  match e.lookupTable.updateDynamicTableSize newSize with
  | (false, _) => (false, e, outputStream)
  | (true, lookupTable) =>
    (true, { e with lookupTable },
      (writeBitPattern .sizeUpdate outputStream).writeInteger newSize)

def setMaxDynamicTableSize (e : Encoder) (size : ℕ) : Encoder :=
  { e with lookupTable := e.lookupTable.setMaxDynamicTableSize size }

def setCompressStrings (e : Encoder) (compress : Bool) : Encoder :=
  { e with compressStrings := compress }

def encodeIndexedField (e : Encoder) (outputStream : BitOStream) (index : ℕ) :
    Bool × Encoder × BitOStream :=
  (true, e, (writeBitPattern .indexed outputStream).writeInteger index)

/-- The addition of a literal field to the table; a field that is refused is only logged. -/
def prependLiteral (e : Encoder) (fieldType : BitPattern) (name value : Octets) : Encoder :=
  if fieldType = .literalIncrementalIndexing then
    { e with lookupTable := (e.lookupTable.prependField name value).2 }
  else e

variable (huffman : Huffman)

/-- `encodeLiteralField` with a literal name. -/
def encodeLiteralField (e : Encoder) (outputStream : BitOStream) (fieldType : BitPattern)
    (name value : Octets) (withCompression : Bool) : Bool × Encoder × BitOStream :=
  if outputStream.bitLength % 8 ≠ 0 then (false, e, outputStream)
  else
    (true, e.prependLiteral fieldType name value,
      (((writeBitPattern fieldType outputStream).writeInteger 0).writeString huffman name
        withCompression).writeString huffman value withCompression)

/-- `encodeLiteralField` with the index of a name. -/
def encodeLiteralFieldIndexed (e : Encoder) (outputStream : BitOStream) (fieldType : BitPattern)
    (nameIndex : ℕ) (value : Octets) (withCompression : Bool) : Bool × Encoder × BitOStream :=
  let name := (e.lookupTable.fieldName nameIndex).getD []
  (true, e.prependLiteral fieldType name value,
    ((writeBitPattern fieldType outputStream).writeInteger nameIndex).writeString huffman value
      withCompression)

def encodeHeaderField (e : Encoder) (outputStream : BitOStream) (field : HeaderField) :
    Bool × Encoder × BitOStream :=
  let index := e.lookupTable.indexOf field.name field.value
  if index ≠ 0 then e.encodeIndexedField outputStream index
  else
    let index := e.lookupTable.indexOfName field.name
    if index ≠ 0 then
      e.encodeLiteralFieldIndexed huffman outputStream .literalIncrementalIndexing index
        field.value e.compressStrings
    else
      e.encodeLiteralField huffman outputStream .literalIncrementalIndexing field.name field.value
        e.compressStrings

def encodeMethod (e : Encoder) (outputStream : BitOStream) (field : HeaderField) :
    Bool × Encoder × BitOStream :=
  let index := e.lookupTable.indexOf field.name field.value
  if index ≠ 0 then e.encodeIndexedField outputStream index
  else
    e.encodeLiteralFieldIndexed huffman outputStream .literalIncrementalIndexing
      (e.lookupTable.indexOfName field.name) field.value e.compressStrings

/-- The pseudo-header fields of a request besides `:method`. -/
def headerName : List Octets := [octets ":authority", octets ":scheme", octets ":path"]

/-- The loop of `encodeRequestPseudoHeaders`: `methodFound` and `headerFound` at its end, or
`none` where it returns `false`. -/
def encodeRequestPseudoFields : HttpHeader → (methodFound : Bool) → (headerFound : List Bool) →
    Encoder → BitOStream → Option (Bool × List Bool) × Encoder × BitOStream
  | [], methodFound, headerFound, e, outputStream =>
    (some (methodFound, headerFound), e, outputStream)
  | field :: header, methodFound, headerFound, e, outputStream =>
    if field.name = octets ":status" then (none, e, outputStream)
    else if field.name = octets ":method" then
      if methodFound then (none, e, outputStream)
      else
        match e.encodeMethod huffman outputStream field with
        | (false, e, outputStream) => (none, e, outputStream)
        | (true, e, outputStream) =>
          encodeRequestPseudoFields header true headerFound e outputStream
    else if field.name = octets "cookie" then
      encodeRequestPseudoFields header methodFound headerFound e outputStream
    else
      match headerName.findIdx? (· == field.name) with
      | none => encodeRequestPseudoFields header methodFound headerFound e outputStream
      | some j =>
        if headerFound[j]! then (none, e, outputStream)
        else
          match e.encodeHeaderField huffman outputStream field with
          | (false, e, outputStream) => (none, e, outputStream)
          | (true, e, outputStream) =>
            encodeRequestPseudoFields header methodFound (headerFound.set j true) e outputStream

def encodeRequestPseudoHeaders (e : Encoder) (outputStream : BitOStream) (header : HttpHeader) :
    Bool × Encoder × BitOStream :=
  match encodeRequestPseudoFields huffman header false [false, false, false] e outputStream with
  | (none, e, outputStream) => (false, e, outputStream)
  | (some (methodFound, headerFound), e, outputStream) =>
    -- `:authority`, the first, is not mandatory.
    (methodFound && (headerFound.drop 1).all id, e, outputStream)

/-- The loop of `encodeResponsePseudoHeaders`: `statusFound` at its end, or `none` where it
returns `false`. -/
def encodeResponsePseudoFields : HttpHeader → (statusFound : Bool) → Encoder → BitOStream →
    Option Bool × Encoder × BitOStream
  | [], statusFound, e, outputStream => (some statusFound, e, outputStream)
  | field :: header, statusFound, e, outputStream =>
    if isRequestPseudoHeader field.name then (none, e, outputStream)
    else if field.name = octets ":status" then
      if statusFound then (none, e, outputStream)
      else
        match e.encodeHeaderField huffman outputStream field with
        | (false, e, outputStream) => (none, e, outputStream)
        | (true, e, outputStream) => encodeResponsePseudoFields header true e outputStream
    else encodeResponsePseudoFields header statusFound e outputStream

def encodeResponsePseudoHeaders (e : Encoder) (outputStream : BitOStream) (header : HttpHeader) :
    Bool × Encoder × BitOStream :=
  match encodeResponsePseudoFields huffman header false e outputStream with
  | (none, e, outputStream) => (false, e, outputStream)
  | (some statusFound, e, outputStream) => (statusFound, e, outputStream)

/-- The loop over the fields whose names are not to be skipped. -/
def encodeFields (skip : Octets → Bool) : HttpHeader → Encoder → BitOStream →
    Bool × Encoder × BitOStream
  | [], e, outputStream => (true, e, outputStream)
  | field :: header, e, outputStream =>
    if skip field.name then encodeFields skip header e outputStream
    else
      match e.encodeHeaderField huffman outputStream field with
      | (false, e, outputStream) => (false, e, outputStream)
      | (true, e, outputStream) => encodeFields skip header e outputStream

def encodeRequest (e : Encoder) (outputStream : BitOStream) (header : HttpHeader) :
    Bool × Encoder × BitOStream :=
  if header = [] then (false, e, outputStream)
  else
    match e.encodeRequestPseudoHeaders huffman outputStream header with
    | (false, e, outputStream) => (false, e, outputStream)
    | (true, e, outputStream) => encodeFields huffman isRequestPseudoHeader header e outputStream

def encodeResponse (e : Encoder) (outputStream : BitOStream) (header : HttpHeader) :
    Bool × Encoder × BitOStream :=
  if header = [] then (false, e, outputStream)
  else
    match e.encodeResponsePseudoHeaders huffman outputStream header with
    | (false, e, outputStream) => (false, e, outputStream)
    | (true, e, outputStream) =>
      encodeFields huffman (fun name => name = octets ":status") header e outputStream

end Encoder

/-- The decoder; `header` is the list decoded last. -/
structure Decoder where
  lookupTable : FieldLookupTable
  header : HttpHeader

namespace Decoder

/-- The decoder with a table of the given size. -/
def new (size : ℕ) : Decoder :=
  ⟨.new size false, []⟩

def setMaxDynamicTableSize (d : Decoder) (size : ℕ) : Decoder :=
  { d with lookupTable := d.lookupTable.setMaxDynamicTableSize size }

def processDecodedField (d : Decoder) (fieldType : BitPattern) (name value : Octets) :
    Bool × Decoder :=
  let (prepended, lookupTable) :=
    if fieldType = .literalIncrementalIndexing then d.lookupTable.prependField name value
    else (true, d.lookupTable)
  let d := { d with lookupTable }
  if !prepended then (false, d)
  else if d.lookupTable.maxTableSize < d.lookupTable.tableCapacity then (false, d)
  else (true, { d with header := d.header ++ [⟨name, value⟩] })

def decodeIndexedField (d : Decoder) (inputStream : BitIStream) : Bool × Decoder × BitIStream :=
  match inputStream.readInteger with
  | (none, inputStream) => (false, d, inputStream)
  | (some index, inputStream) =>
    if index = 0 then (false, d, inputStream)
    else
      match d.lookupTable.field index with
      | none => (false, d, inputStream)
      | some f =>
        let (processed, d) := d.processDecodedField .indexed f.name f.value
        (processed, d, inputStream)

def decodeSizeUpdate (d : Decoder) (inputStream : BitIStream) : Bool × Decoder × BitIStream :=
  match inputStream.readInteger with
  | (none, inputStream) => (false, d, inputStream)
  | (some maxSize, inputStream) =>
    let (updated, lookupTable) := d.lookupTable.updateDynamicTableSize maxSize
    (updated, { d with lookupTable }, inputStream)

variable (huffman : Huffman)

def decodeLiteralField (d : Decoder) (fieldType : BitPattern) (inputStream : BitIStream) :
    Bool × Decoder × BitIStream :=
  match inputStream.readInteger with
  | (none, inputStream) => (false, d, inputStream)
  | (some index, inputStream) =>
    let (name, inputStream) :=
      if index = 0 then inputStream.readString huffman
      else (d.lookupTable.fieldName index, inputStream)
    match name with
    | none => (false, d, inputStream)
    | some name =>
      match inputStream.readString huffman with
      | (none, inputStream) => (false, d, inputStream)
      | (some value, inputStream) =>
        let (processed, d) := d.processDecodedField fieldType name value
        (processed, d, inputStream)

/-- The body of the loop of `decodeHeaderFields`: `none` where no pattern is next. -/
def decodeNext (d : Decoder) (inputStream : BitIStream) : Option (Bool × Decoder × BitIStream) :=
  match readBitPattern .indexed inputStream with
  | (true, inputStream) => some (d.decodeIndexedField inputStream)
  | (false, inputStream) =>
    match readBitPattern .literalIncrementalIndexing inputStream with
    | (true, inputStream) =>
      some (d.decodeLiteralField huffman .literalIncrementalIndexing inputStream)
    | (false, inputStream) =>
      match readBitPattern .literalNoIndexing inputStream with
      | (true, inputStream) => some (d.decodeLiteralField huffman .literalNoIndexing inputStream)
      | (false, inputStream) =>
        match readBitPattern .literalNeverIndexing inputStream with
        | (true, inputStream) =>
          some (d.decodeLiteralField huffman .literalNeverIndexing inputStream)
        | (false, inputStream) =>
          match readBitPattern .sizeUpdate inputStream with
          | (true, inputStream) => some (d.decodeSizeUpdate inputStream)
          | (false, _) => none

/-- The loop of `decodeHeaderFields`, cut after `turns` turns. -/
def decodeLoop : (turns : ℕ) → Decoder → BitIStream → Option (Bool × Decoder × BitIStream)
  | 0, _, _ => none
  | turns + 1, d, inputStream =>
    match d.decodeNext huffman inputStream with
    | none => some (inputStream.bitLength = inputStream.offset, d, inputStream)
    | some (false, d, inputStream) => some (false, d, inputStream)
    | some (true, d, inputStream) => decodeLoop turns d inputStream

/-- `decodeHeaderFields`.  A turn that does not move the stream back reads an octet at
least; `none` where the loop takes more turns than there are octets. -/
def decodeHeaderFields (d : Decoder) (inputStream : BitIStream) :
    Option (Bool × Decoder × BitIStream) :=
  decodeLoop huffman (inputStream.data.length + 1) { d with header := [] } inputStream

end Decoder

end HPack
