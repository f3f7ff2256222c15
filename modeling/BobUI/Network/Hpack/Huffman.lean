import BobUI.Network.Hpack.BitStreams
import BobUI.Library.PrefixCode

/-!
# The Huffman code

`huffman.cpp`: the codes of the octets and of `EOS`, the encoder, and the decoder, which looks
codes up in tables.  A table is indexed by the bits of a code behind a prefix.  Its entry is the
symbol whose code ends there, or refers to the table for the bits that follow.

The functions of the decoder return none where an assertion fails or an index lies outside a
vector.
-/

namespace HPack

structure CodeEntry where
  byteValue : ℕ
  huffmanCode : ℕ
  bitLength : ℕ
deriving DecidableEq

/-- The codes, at the top of 32 bits. -/
def staticHuffmanCodeTable : List CodeEntry :=
  [⟨0, 0xffc00000, 13⟩, ⟨1, 0xffffb000, 23⟩, ⟨2, 0xfffffe20, 28⟩, ⟨3, 0xfffffe30, 28⟩,
    ⟨4, 0xfffffe40, 28⟩, ⟨5, 0xfffffe50, 28⟩, ⟨6, 0xfffffe60, 28⟩, ⟨7, 0xfffffe70, 28⟩,
    ⟨8, 0xfffffe80, 28⟩, ⟨9, 0xffffea00, 24⟩, ⟨10, 0xfffffff0, 30⟩, ⟨11, 0xfffffe90, 28⟩,
    ⟨12, 0xfffffea0, 28⟩, ⟨13, 0xfffffff4, 30⟩, ⟨14, 0xfffffeb0, 28⟩, ⟨15, 0xfffffec0, 28⟩,
    ⟨16, 0xfffffed0, 28⟩, ⟨17, 0xfffffee0, 28⟩, ⟨18, 0xfffffef0, 28⟩, ⟨19, 0xffffff00, 28⟩,
    ⟨20, 0xffffff10, 28⟩, ⟨21, 0xffffff20, 28⟩, ⟨22, 0xfffffff8, 30⟩, ⟨23, 0xffffff30, 28⟩,
    ⟨24, 0xffffff40, 28⟩, ⟨25, 0xffffff50, 28⟩, ⟨26, 0xffffff60, 28⟩, ⟨27, 0xffffff70, 28⟩,
    ⟨28, 0xffffff80, 28⟩, ⟨29, 0xffffff90, 28⟩, ⟨30, 0xffffffa0, 28⟩, ⟨31, 0xffffffb0, 28⟩,
    ⟨32, 0x50000000, 6⟩, ⟨33, 0xfe000000, 10⟩, ⟨34, 0xfe400000, 10⟩, ⟨35, 0xffa00000, 12⟩,
    ⟨36, 0xffc80000, 13⟩, ⟨37, 0x54000000, 6⟩, ⟨38, 0xf8000000, 8⟩, ⟨39, 0xff400000, 11⟩,
    ⟨40, 0xfe800000, 10⟩, ⟨41, 0xfec00000, 10⟩, ⟨42, 0xf9000000, 8⟩, ⟨43, 0xff600000, 11⟩,
    ⟨44, 0xfa000000, 8⟩, ⟨45, 0x58000000, 6⟩, ⟨46, 0x5c000000, 6⟩, ⟨47, 0x60000000, 6⟩,
    ⟨48, 0x00000000, 5⟩, ⟨49, 0x08000000, 5⟩, ⟨50, 0x10000000, 5⟩, ⟨51, 0x64000000, 6⟩,
    ⟨52, 0x68000000, 6⟩, ⟨53, 0x6c000000, 6⟩, ⟨54, 0x70000000, 6⟩, ⟨55, 0x74000000, 6⟩,
    ⟨56, 0x78000000, 6⟩, ⟨57, 0x7c000000, 6⟩, ⟨58, 0xb8000000, 7⟩, ⟨59, 0xfb000000, 8⟩,
    ⟨60, 0xfff80000, 15⟩, ⟨61, 0x80000000, 6⟩, ⟨62, 0xffb00000, 12⟩, ⟨63, 0xff000000, 10⟩,
    ⟨64, 0xffd00000, 13⟩, ⟨65, 0x84000000, 6⟩, ⟨66, 0xba000000, 7⟩, ⟨67, 0xbc000000, 7⟩,
    ⟨68, 0xbe000000, 7⟩, ⟨69, 0xc0000000, 7⟩, ⟨70, 0xc2000000, 7⟩, ⟨71, 0xc4000000, 7⟩,
    ⟨72, 0xc6000000, 7⟩, ⟨73, 0xc8000000, 7⟩, ⟨74, 0xca000000, 7⟩, ⟨75, 0xcc000000, 7⟩,
    ⟨76, 0xce000000, 7⟩, ⟨77, 0xd0000000, 7⟩, ⟨78, 0xd2000000, 7⟩, ⟨79, 0xd4000000, 7⟩,
    ⟨80, 0xd6000000, 7⟩, ⟨81, 0xd8000000, 7⟩, ⟨82, 0xda000000, 7⟩, ⟨83, 0xdc000000, 7⟩,
    ⟨84, 0xde000000, 7⟩, ⟨85, 0xe0000000, 7⟩, ⟨86, 0xe2000000, 7⟩, ⟨87, 0xe4000000, 7⟩,
    ⟨88, 0xfc000000, 8⟩, ⟨89, 0xe6000000, 7⟩, ⟨90, 0xfd000000, 8⟩, ⟨91, 0xffd80000, 13⟩,
    ⟨92, 0xfffe0000, 19⟩, ⟨93, 0xffe00000, 13⟩, ⟨94, 0xfff00000, 14⟩, ⟨95, 0x88000000, 6⟩,
    ⟨96, 0xfffa0000, 15⟩, ⟨97, 0x18000000, 5⟩, ⟨98, 0x8c000000, 6⟩, ⟨99, 0x20000000, 5⟩,
    ⟨100, 0x90000000, 6⟩, ⟨101, 0x28000000, 5⟩, ⟨102, 0x94000000, 6⟩, ⟨103, 0x98000000, 6⟩,
    ⟨104, 0x9c000000, 6⟩, ⟨105, 0x30000000, 5⟩, ⟨106, 0xe8000000, 7⟩, ⟨107, 0xea000000, 7⟩,
    ⟨108, 0xa0000000, 6⟩, ⟨109, 0xa4000000, 6⟩, ⟨110, 0xa8000000, 6⟩, ⟨111, 0x38000000, 5⟩,
    ⟨112, 0xac000000, 6⟩, ⟨113, 0xec000000, 7⟩, ⟨114, 0xb0000000, 6⟩, ⟨115, 0x40000000, 5⟩,
    ⟨116, 0x48000000, 5⟩, ⟨117, 0xb4000000, 6⟩, ⟨118, 0xee000000, 7⟩, ⟨119, 0xf0000000, 7⟩,
    ⟨120, 0xf2000000, 7⟩, ⟨121, 0xf4000000, 7⟩, ⟨122, 0xf6000000, 7⟩, ⟨123, 0xfffc0000, 15⟩,
    ⟨124, 0xff800000, 11⟩, ⟨125, 0xfff40000, 14⟩, ⟨126, 0xffe80000, 13⟩, ⟨127, 0xffffffc0, 28⟩,
    ⟨128, 0xfffe6000, 20⟩, ⟨129, 0xffff4800, 22⟩, ⟨130, 0xfffe7000, 20⟩, ⟨131, 0xfffe8000, 20⟩,
    ⟨132, 0xffff4c00, 22⟩, ⟨133, 0xffff5000, 22⟩, ⟨134, 0xffff5400, 22⟩, ⟨135, 0xffffb200, 23⟩,
    ⟨136, 0xffff5800, 22⟩, ⟨137, 0xffffb400, 23⟩, ⟨138, 0xffffb600, 23⟩, ⟨139, 0xffffb800, 23⟩,
    ⟨140, 0xffffba00, 23⟩, ⟨141, 0xffffbc00, 23⟩, ⟨142, 0xffffeb00, 24⟩, ⟨143, 0xffffbe00, 23⟩,
    ⟨144, 0xffffec00, 24⟩, ⟨145, 0xffffed00, 24⟩, ⟨146, 0xffff5c00, 22⟩, ⟨147, 0xffffc000, 23⟩,
    ⟨148, 0xffffee00, 24⟩, ⟨149, 0xffffc200, 23⟩, ⟨150, 0xffffc400, 23⟩, ⟨151, 0xffffc600, 23⟩,
    ⟨152, 0xffffc800, 23⟩, ⟨153, 0xfffee000, 21⟩, ⟨154, 0xffff6000, 22⟩, ⟨155, 0xffffca00, 23⟩,
    ⟨156, 0xffff6400, 22⟩, ⟨157, 0xffffcc00, 23⟩, ⟨158, 0xffffce00, 23⟩, ⟨159, 0xffffef00, 24⟩,
    ⟨160, 0xffff6800, 22⟩, ⟨161, 0xfffee800, 21⟩, ⟨162, 0xfffe9000, 20⟩, ⟨163, 0xffff6c00, 22⟩,
    ⟨164, 0xffff7000, 22⟩, ⟨165, 0xffffd000, 23⟩, ⟨166, 0xffffd200, 23⟩, ⟨167, 0xfffef000, 21⟩,
    ⟨168, 0xffffd400, 23⟩, ⟨169, 0xffff7400, 22⟩, ⟨170, 0xffff7800, 22⟩, ⟨171, 0xfffff000, 24⟩,
    ⟨172, 0xfffef800, 21⟩, ⟨173, 0xffff7c00, 22⟩, ⟨174, 0xffffd600, 23⟩, ⟨175, 0xffffd800, 23⟩,
    ⟨176, 0xffff0000, 21⟩, ⟨177, 0xffff0800, 21⟩, ⟨178, 0xffff8000, 22⟩, ⟨179, 0xffff1000, 21⟩,
    ⟨180, 0xffffda00, 23⟩, ⟨181, 0xffff8400, 22⟩, ⟨182, 0xffffdc00, 23⟩, ⟨183, 0xffffde00, 23⟩,
    ⟨184, 0xfffea000, 20⟩, ⟨185, 0xffff8800, 22⟩, ⟨186, 0xffff8c00, 22⟩, ⟨187, 0xffff9000, 22⟩,
    ⟨188, 0xffffe000, 23⟩, ⟨189, 0xffff9400, 22⟩, ⟨190, 0xffff9800, 22⟩, ⟨191, 0xffffe200, 23⟩,
    ⟨192, 0xfffff800, 26⟩, ⟨193, 0xfffff840, 26⟩, ⟨194, 0xfffeb000, 20⟩, ⟨195, 0xfffe2000, 19⟩,
    ⟨196, 0xffff9c00, 22⟩, ⟨197, 0xffffe400, 23⟩, ⟨198, 0xffffa000, 22⟩, ⟨199, 0xfffff600, 25⟩,
    ⟨200, 0xfffff880, 26⟩, ⟨201, 0xfffff8c0, 26⟩, ⟨202, 0xfffff900, 26⟩, ⟨203, 0xfffffbc0, 27⟩,
    ⟨204, 0xfffffbe0, 27⟩, ⟨205, 0xfffff940, 26⟩, ⟨206, 0xfffff100, 24⟩, ⟨207, 0xfffff680, 25⟩,
    ⟨208, 0xfffe4000, 19⟩, ⟨209, 0xffff1800, 21⟩, ⟨210, 0xfffff980, 26⟩, ⟨211, 0xfffffc00, 27⟩,
    ⟨212, 0xfffffc20, 27⟩, ⟨213, 0xfffff9c0, 26⟩, ⟨214, 0xfffffc40, 27⟩, ⟨215, 0xfffff200, 24⟩,
    ⟨216, 0xffff2000, 21⟩, ⟨217, 0xffff2800, 21⟩, ⟨218, 0xfffffa00, 26⟩, ⟨219, 0xfffffa40, 26⟩,
    ⟨220, 0xffffffd0, 28⟩, ⟨221, 0xfffffc60, 27⟩, ⟨222, 0xfffffc80, 27⟩, ⟨223, 0xfffffca0, 27⟩,
    ⟨224, 0xfffec000, 20⟩, ⟨225, 0xfffff300, 24⟩, ⟨226, 0xfffed000, 20⟩, ⟨227, 0xffff3000, 21⟩,
    ⟨228, 0xffffa400, 22⟩, ⟨229, 0xffff3800, 21⟩, ⟨230, 0xffff4000, 21⟩, ⟨231, 0xffffe600, 23⟩,
    ⟨232, 0xffffa800, 22⟩, ⟨233, 0xffffac00, 22⟩, ⟨234, 0xfffff700, 25⟩, ⟨235, 0xfffff780, 25⟩,
    ⟨236, 0xfffff400, 24⟩, ⟨237, 0xfffff500, 24⟩, ⟨238, 0xfffffa80, 26⟩, ⟨239, 0xffffe800, 23⟩,
    ⟨240, 0xfffffac0, 26⟩, ⟨241, 0xfffffcc0, 27⟩, ⟨242, 0xfffffb00, 26⟩, ⟨243, 0xfffffb40, 26⟩,
    ⟨244, 0xfffffce0, 27⟩, ⟨245, 0xfffffd00, 27⟩, ⟨246, 0xfffffd20, 27⟩, ⟨247, 0xfffffd40, 27⟩,
    ⟨248, 0xfffffd60, 27⟩, ⟨249, 0xffffffe0, 28⟩, ⟨250, 0xfffffd80, 27⟩, ⟨251, 0xfffffda0, 27⟩,
    ⟨252, 0xfffffdc0, 27⟩, ⟨253, 0xfffffde0, 27⟩, ⟨254, 0xfffffe00, 27⟩, ⟨255, 0xfffffb80, 26⟩,
    ⟨256, 0xfffffffc, 30⟩]

/-! ### Encoding -/

/-- One step of `write_huffman_code`: the bits above the lowest ones are written, where there are
any, and the number of those that are left. -/
def writeBitsAbove (hc above : ℕ) (state : BitOStream × ℕ) : BitOStream × ℕ :=
  if state.2 > above then (state.1.writeBits (hc >>> above % 256) (state.2 - above), above)
  else state

/-- `write_huffman_code`. -/
def writeHuffmanCode (outputStream : BitOStream) (code : CodeEntry) : BitOStream :=
  let hc := code.huffmanCode >>> (32 - code.bitLength)
  let (outputStream, bitLength) :=
    writeBitsAbove hc 8 (writeBitsAbove hc 16 (writeBitsAbove hc 24
      (outputStream, code.bitLength)))
  outputStream.writeBits (hc % 256) bitLength

/-- The octets that a loop up to `int e = inputData.size()` comes to. -/
def octetsToInt (inputData : Octets) : Octets :=
  inputData.take (Int.bmod inputData.length (2 ^ 32)).toNat

/-- A `char`, which is signed, as an `int`. -/
def charToInt (c : UInt8) : ℤ :=
  Int.bmod c.toNat (2 ^ 8)

/-- `huffman_encoded_bit_length`; none where the index lies outside the table. -/
def huffmanEncodedBitLength (inputData : Octets) : Option ℕ :=
  (octetsToInt inputData).foldlM (fun bitLength c =>
    if charToInt c < 0 then none
    else (staticHuffmanCodeTable[(charToInt c).toNat]?).map (bitLength + ·.bitLength)) 0

/-- `huffman_encode_string`. -/
def huffmanEncodeString (inputData : Octets) (outputStream : BitOStream) : BitOStream :=
  let outputStream := (octetsToInt inputData).foldl
    (fun outputStream c =>
      writeHuffmanCode outputStream (staticHuffmanCodeTable.getD c.toNat ⟨0, 0, 0⟩)) outputStream
  if outputStream.bitLength % 8 ≠ 0 then
    outputStream.writeBits 0xff (8 - outputStream.bitLength % 8)
  else outputStream

/-! ### Decoding -/

structure PrefixTable where
  prefixLength : ℕ
  indexLength : ℕ
  offset : ℕ

def PrefixTable.size (table : PrefixTable) : ℕ :=
  1 <<< table.indexLength

/-- The number of bits that a table and those before it code. -/
def PrefixTable.codedLength (table : PrefixTable) : ℕ :=
  table.prefixLength + table.indexLength

/-- The index for a word: the bits behind the prefix. -/
def PrefixTable.entryIndex (table : PrefixTable) (word : ℕ) : ℕ :=
  ((word <<< table.prefixLength) % 2 ^ 32) >>> (32 - table.indexLength)

structure PrefixTableEntry where
  bitLength : ℕ := 0
  nextTable : ℕ := 0
  byteValue : ℕ := 0
deriving DecidableEq

structure HuffmanDecoder where
  prefixTables : List PrefixTable
  tableData : List PrefixTableEntry
  minCodeLength : ℕ

namespace HuffmanDecoder

def rootPrefix : ℕ := 9

def childPrefix : ℕ := 6

/-- `addTable`: the index of the new table. -/
def addTable (d : HuffmanDecoder) (pre index : ℕ) : ℕ × HuffmanDecoder :=
  let newTable : PrefixTable := ⟨pre, index, d.tableData.length⟩
  (d.prefixTables.length, { d with
    prefixTables := d.prefixTables ++ [newTable],
    tableData := d.tableData ++ List.replicate newTable.size {} })

def tableEntry (d : HuffmanDecoder) (table : PrefixTable) (index : ℕ) : Option PrefixTableEntry :=
  if index < table.size then d.tableData[table.offset + index]? else none

def setTableEntry (d : HuffmanDecoder) (table : PrefixTable) (index : ℕ)
    (entry : PrefixTableEntry) : Option HuffmanDecoder :=
  if index < table.size ∧ table.offset + index < d.tableData.length then
    some { d with tableData := d.tableData.set (table.offset + index) entry }
  else none

/-- The loop of the constructor for a symbol, for some turns from a table on. -/
def addSymbol (s : CodeEntry) : ℕ → ℕ → HuffmanDecoder → Option HuffmanDecoder
  | 0, _, _ => none
  | turns + 1, tableIndex, d => do
    let table ← d.prefixTables[tableIndex]?
    let entryIndex := table.entryIndex s.huffmanCode
    let entry ← d.tableEntry table entryIndex
    if table.codedLength < s.bitLength then
      if entry.bitLength = 0 then
        let (nextTable, d) := d.addTable table.codedLength
          (min childPrefix (s.bitLength - table.codedLength))
        let d ← d.setTableEntry table entryIndex ⟨s.bitLength, nextTable, s.byteValue⟩
        addSymbol s turns nextTable d
      else addSymbol s turns entry.nextTable d
    else d.setTableEntry table entryIndex ⟨s.bitLength, tableIndex, s.byteValue⟩

/-- The loop that fills the holes of a table, for some turns from an index on. -/
def fillHoles (table : PrefixTable) : ℕ → ℕ → HuffmanDecoder → Option HuffmanDecoder
  | 0, j, d => if j < table.size then none else some d
  | turns + 1, j, d =>
    if j < table.size then do
      let entry ← d.tableEntry table j
      if entry.bitLength ≠ 0 ∧ entry.bitLength < table.codedLength then
        let range := 1 <<< (table.codedLength - entry.bitLength)
        let d ← (List.range' 1 (range - 1)).foldlM
          (fun d k => d.setTableEntry table (j + k) entry) d
        fillHoles table turns (j + range) d
      else fillHoles table turns (j + 1) d
    else some d

/-- The order of the symbols: the longest code first. -/
def sortsBefore (code1 code2 : CodeEntry) : Bool :=
  if code1.bitLength = code2.bitLength then code1.byteValue > code2.byteValue
  else code1.bitLength > code2.bitLength

/-- The constructor, for any table of codes. -/
def build (codes : List CodeEntry) : Option HuffmanDecoder := do
  let symbols := codes.mergeSort fun code1 code2 => !sortsBefore code2 code1
  let shortest ← symbols.getLast?
  let (_, d) := addTable ⟨[], [], shortest.bitLength⟩ 0 rootPrefix
  let d ← symbols.foldlM (fun d s => addSymbol s s.bitLength 0 d) d
  d.prefixTables.foldlM (fun d table => fillHoles table table.size 0 d) d

/-- `HuffmanDecoder::HuffmanDecoder`. -/
def new : Option HuffmanDecoder :=
  build staticHuffmanCodeTable

/-- `padding_is_valid`. -/
def paddingIsValid (chunk nBits : ℕ) : Bool :=
  if nBits > 7 then false else chunk >>> (32 - nBits) = (1 <<< nBits) - 1

/-- The inner loop of `decodeStream`, for some turns: from an entry of a table to the one that
refers to its own table. -/
def lookUp (d : HuffmanDecoder) (chunk : ℕ) :
    ℕ → ℕ → PrefixTableEntry → Option PrefixTableEntry
  | 0, _, _ => none
  | turns + 1, tableIndex, entry =>
    if entry.nextTable = tableIndex then some entry
    else do
      let table ← d.prefixTables[entry.nextTable]?
      lookUp d chunk turns entry.nextTable (← d.tableEntry table (table.entryIndex chunk))

/-- `decodeStream`, for some turns of its loop: whether the bits are valid, the stream and the
output then. -/
def decodeStream (d : HuffmanDecoder) :
    ℕ → BitIStream → Octets → Option (Bool × BitIStream × Octets)
  | 0, _, _ => none
  | turns + 1, inputStream, outputBuffer =>
    let (readBits, chunk) := inputStream.peekBits 32 inputStream.offset 32
    if readBits = 0 then some (!inputStream.hasMoreBits, inputStream, outputBuffer)
    else if readBits < d.minCodeLength then
      some (paddingIsValid chunk readBits, (inputStream.skipBits readBits).2, outputBuffer)
    else do
      let table ← d.prefixTables[0]?
      let first ← d.tableEntry table (chunk >>> (32 - table.indexLength))
      let entry ← d.lookUp chunk d.prefixTables.length 0 first
      if entry.bitLength > readBits then
        some (paddingIsValid chunk readBits, (inputStream.skipBits readBits).2, outputBuffer)
      else if entry.bitLength = 0 ∨ entry.byteValue = 256 then
        some (false, (inputStream.skipBits readBits).2, outputBuffer)
      else
        decodeStream d turns (inputStream.skipBits entry.bitLength).2
          (outputBuffer ++ [UInt8.ofNat entry.byteValue])

end HuffmanDecoder

end HPack
