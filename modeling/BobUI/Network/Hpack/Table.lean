import BobUI.Library.OrderedSet
import Mathlib.Data.UInt

/-!
# The header field lookup table

`FieldLookupTable` is the table of `hpacktable.cpp`.  Its static part is a fixed list; its
dynamic part is kept in chunks of 16 fields, the newest chunk first, each filled from its
back to its front, between the cursors `beginPos` and `endPos`.  With `useIndex` it also
keeps the set `searchIndex` of the dynamic entries, ordered by name, value and place.
-/

/-- A sequence of octets, the contents of a `QByteArray`. -/
abbrev Octets : Type := List UInt8

/-- The octets of an ASCII literal. -/
def octets (s : String) : Octets :=
  s.toList.map fun c => UInt8.ofNat c.toNat

/-- The conversion of an integer to a 32-bit `int`. -/
def toInt32 (x : ℤ) : ℤ :=
  Int.bmod x (2 ^ 32)

namespace HPack

/-- A header field. -/
structure HeaderField where
  name : Octets
  value : Octets
deriving DecidableEq, Repr, Inhabited

/-- `entry_size`: the size HPACK gives an entry, if it can be represented. -/
def entrySize (name value : Octets) : Option ℕ :=
  let sum := name.length + value.length
  if 2 ^ 64 ≤ sum then none
  else if 2 ^ 32 - 1 - 32 < sum then none
  else some (sum + 32)

/-- `memcmp` on the first octets of the two sequences, as many as the shorter one has. -/
def memcmp : Octets → Octets → ℤ
  | a :: lhs, b :: rhs => if a = b then memcmp lhs rhs else (a.toNat : ℤ) - b.toNat
  | _, _ => 0

/-- `compare`: negative, zero or positive; the difference of the sizes is an `int`. -/
def compare (lhs rhs : Octets) : ℤ :=
  let cmp := memcmp lhs rhs
  if cmp ≠ 0 then cmp else toInt32 (lhs.length - rhs.length)

/-- The number of fields of a chunk. -/
def chunkSize : ℕ := 16

/-- A chunk of fields; `address` stands for the pointer that identifies it. -/
structure Chunk where
  address : ℕ
  fields : List HeaderField
deriving DecidableEq, Repr, Inhabited

/-- A key of the search index.  The entry it points to is in `chunk` at `offset`; a key
without a chunk is not in the index. -/
structure SearchEntry where
  field : HeaderField
  chunk : Option ℕ
  offset : ℕ
deriving DecidableEq, Repr

/-- The lookup table.  `nextAddress` is the address of the next chunk allocated. -/
structure FieldLookupTable where
  maxTableSize : ℕ
  tableCapacity : ℕ
  useIndex : Bool
  chunks : List Chunk
  searchIndex : List SearchEntry
  nDynamic : ℕ
  beginPos : ℕ
  endPos : ℕ
  dataSize : ℕ
  nextAddress : ℕ
deriving DecidableEq, Repr

/-- The fields of HPACK's static table, in order. -/
def staticPart : List HeaderField :=
  [ ⟨octets ":authority", octets ""⟩, ⟨octets ":method", octets "GET"⟩,
    ⟨octets ":method", octets "POST"⟩, ⟨octets ":path", octets "/"⟩,
    ⟨octets ":path", octets "/index.html"⟩, ⟨octets ":scheme", octets "http"⟩,
    ⟨octets ":scheme", octets "https"⟩, ⟨octets ":status", octets "200"⟩,
    ⟨octets ":status", octets "204"⟩, ⟨octets ":status", octets "206"⟩,
    ⟨octets ":status", octets "304"⟩, ⟨octets ":status", octets "400"⟩,
    ⟨octets ":status", octets "404"⟩, ⟨octets ":status", octets "500"⟩,
    ⟨octets "accept-charset", octets ""⟩, ⟨octets "accept-encoding", octets "gzip, deflate"⟩,
    ⟨octets "accept-language", octets ""⟩, ⟨octets "accept-ranges", octets ""⟩,
    ⟨octets "accept", octets ""⟩, ⟨octets "access-control-allow-origin", octets ""⟩,
    ⟨octets "age", octets ""⟩, ⟨octets "allow", octets ""⟩,
    ⟨octets "authorization", octets ""⟩, ⟨octets "cache-control", octets ""⟩,
    ⟨octets "content-disposition", octets ""⟩, ⟨octets "content-encoding", octets ""⟩,
    ⟨octets "content-language", octets ""⟩, ⟨octets "content-length", octets ""⟩,
    ⟨octets "content-location", octets ""⟩, ⟨octets "content-range", octets ""⟩,
    ⟨octets "content-type", octets ""⟩, ⟨octets "cookie", octets ""⟩,
    ⟨octets "date", octets ""⟩, ⟨octets "etag", octets ""⟩,
    ⟨octets "expect", octets ""⟩, ⟨octets "expires", octets ""⟩,
    ⟨octets "from", octets ""⟩, ⟨octets "host", octets ""⟩,
    ⟨octets "if-match", octets ""⟩, ⟨octets "if-modified-since", octets ""⟩,
    ⟨octets "if-none-match", octets ""⟩, ⟨octets "if-range", octets ""⟩,
    ⟨octets "if-unmodified-since", octets ""⟩, ⟨octets "last-modified", octets ""⟩,
    ⟨octets "link", octets ""⟩, ⟨octets "location", octets ""⟩,
    ⟨octets "max-forwards", octets ""⟩, ⟨octets "proxy-authenticate", octets ""⟩,
    ⟨octets "proxy-authorization", octets ""⟩, ⟨octets "range", octets ""⟩,
    ⟨octets "referer", octets ""⟩, ⟨octets "refresh", octets ""⟩,
    ⟨octets "retry-after", octets ""⟩, ⟨octets "server", octets ""⟩,
    ⟨octets "set-cookie", octets ""⟩, ⟨octets "strict-transport-security", octets ""⟩,
    ⟨octets "transfer-encoding", octets ""⟩, ⟨octets "user-agent", octets ""⟩,
    ⟨octets "vary", octets ""⟩, ⟨octets "via", octets ""⟩,
    ⟨octets "www-authenticate", octets ""⟩ ]

/-- Whether a lookup compares names only. -/
inductive CompareMode where
  | nameOnly
  | nameAndValue
deriving DecidableEq

/-- The order the static table is sorted by. -/
def fieldBelow (mode : CompareMode) (lhs rhs : HeaderField) : Bool :=
  let cmp := compare lhs.name rhs.name
  if cmp ≠ 0 then decide (cmp < 0)
  else match mode with
    | .nameAndValue => decide (compare lhs.value rhs.value < 0)
    | .nameOnly => false

/-- The position of `accept`, the one entry of the static table out of order. -/
def acceptPos : ℕ := 18

/-- `findInStaticPart`: the position `std::lower_bound` gives in the part of the table
before `accept`, or else in the part after it; the size of the table if there is none. -/
def findInStaticPart (field : HeaderField) (mode : CompareMode) : ℕ :=
  if field.name = octets "accept" then
    if mode = .nameAndValue ∧ field.value ≠ octets "" then staticPart.length else acceptPos
  else
    let staticPos := (staticPart.take acceptPos).findIdx fun e => !fieldBelow mode e field
    if staticPos ≠ acceptPos then staticPos
    else acceptPos + 1 +
      (staticPart.drop (acceptPos + 1)).findIdx fun e => !fieldBelow mode e field

namespace FieldLookupTable

/-- A new table. -/
def new (maxSize : ℕ) (use : Bool) : FieldLookupTable where
  maxTableSize := maxSize
  tableCapacity := maxSize
  useIndex := use
  chunks := []
  searchIndex := []
  nDynamic := 0
  beginPos := 0
  endPos := 0
  dataSize := 0
  nextAddress := 0

/-- The field at an absolute position of the dynamic part. -/
def fieldAt (t : FieldLookupTable) (pos : ℕ) : HeaderField :=
  (t.chunks[pos / chunkSize]!).fields[pos % chunkSize]!

/-- The newest field. -/
def front (t : FieldLookupTable) : HeaderField :=
  (t.chunks[0]!).fields[t.beginPos]!

/-- The oldest field. -/
def back (t : FieldLookupTable) : HeaderField :=
  t.fieldAt (t.endPos - 1)

/-- The place of a chunk among the chunks. -/
def indexOfChunk (t : FieldLookupTable) (chunk : ℕ) : ℕ :=
  t.chunks.findIdx fun c => c.address == chunk

/-- `SearchEntry::operator<`. -/
def entryBelow (t : FieldLookupTable) (lhs rhs : SearchEntry) : Bool :=
  let cmp := compare lhs.field.name rhs.field.name
  if cmp ≠ 0 then decide (cmp < 0) else
  let cmp := compare lhs.field.value rhs.field.value
  if cmp ≠ 0 then decide (cmp < 0) else
  match lhs.chunk, rhs.chunk with
  | none, chunk => chunk.isSome
  | some _, none => false
  | some left, some right =>
    let leftChunkIndex := t.indexOfChunk left
    let rightChunkIndex := t.indexOfChunk right
    if leftChunkIndex ≠ rightChunkIndex then decide (leftChunkIndex > rightChunkIndex)
    else decide (lhs.offset > rhs.offset)

/-- The key of the newest field. -/
def frontKey (t : FieldLookupTable) : SearchEntry :=
  ⟨t.front, some (t.chunks[0]!).address, t.beginPos⟩

/-- The key of the oldest field. -/
def backKey (t : FieldLookupTable) : SearchEntry :=
  let absIndex := t.endPos - 1
  ⟨t.back, some (t.chunks[absIndex / chunkSize]!).address, absIndex % chunkSize⟩

def clearDynamicTable (t : FieldLookupTable) : FieldLookupTable :=
  { t with searchIndex := [], chunks := [], beginPos := 0, endPos := 0, nDynamic := 0,
           dataSize := 0 }

/-- The removal of the oldest field from the search index. -/
def eraseBackKey (t : FieldLookupTable) : FieldLookupTable :=
  if t.useIndex then { t with searchIndex := OrderedSet.erase t.entryBelow t.searchIndex t.backKey }
  else t

/-- The removal of the oldest field from the chunks. -/
def popBack (t : FieldLookupTable) : FieldLookupTable :=
  let t := { t with dataSize := t.dataSize - (entrySize t.back.name t.back.value).getD 0,
                    nDynamic := t.nDynamic - 1, endPos := t.endPos - 1 }
  if t.endPos = t.beginPos then { t with endPos := chunkSize, beginPos := chunkSize }
  else if t.endPos % chunkSize = 0 then { t with chunks := t.chunks.dropLast }
  else t

def evictEntry (t : FieldLookupTable) : FieldLookupTable :=
  if t.nDynamic = 0 then t else t.eraseBackKey.popBack

/-- The loop `while (nDynamic && tooFull) evictEntry()`; every turn removes one of the
`nDynamic` entries. -/
def evictWhile (tooFull : FieldLookupTable → Bool) : ℕ → FieldLookupTable → FieldLookupTable
  | 0, t => t
  | n + 1, t => if t.nDynamic ≠ 0 ∧ tooFull t then evictWhile tooFull n t.evictEntry else t

/-- A new chunk in front of the others. -/
def pushChunk (t : FieldLookupTable) : FieldLookupTable :=
  { t with chunks := ⟨t.nextAddress, List.replicate chunkSize default⟩ :: t.chunks,
           nextAddress := t.nextAddress + 1,
           endPos := t.endPos + chunkSize,
           beginPos := chunkSize }

/-- The field `f` in the slot before the newest one. -/
def pushFront (t : FieldLookupTable) (f : HeaderField) (size : ℕ) : FieldLookupTable :=
  let t := { t with beginPos := t.beginPos - 1, dataSize := t.dataSize + size,
                    nDynamic := t.nDynamic + 1 }
  { t with chunks := t.chunks.modify 0 fun c => { c with fields := c.fields.set t.beginPos f } }

/-- The addition of the newest field to the search index. -/
def insertFrontKey (t : FieldLookupTable) : FieldLookupTable :=
  if t.useIndex then
    { t with searchIndex := OrderedSet.insert t.entryBelow t.searchIndex t.frontKey }
  else t

def prependField (t : FieldLookupTable) (name value : Octets) : Bool × FieldLookupTable :=
  match entrySize name value with
  | none => (false, t)
  | some size =>
    if size > t.tableCapacity then (true, t.clearDynamicTable) else
    let t := evictWhile (fun t => t.tableCapacity - t.dataSize < size) t.nDynamic t
    let t := if t.beginPos = 0 then t.pushChunk else t
    (true, (t.pushFront ⟨name, value⟩ size).insertFrontKey)

def numberOfEntries (t : FieldLookupTable) : ℕ := staticPart.length + t.nDynamic

def indexIsValid (t : FieldLookupTable) (index : ℕ) : Bool :=
  index ≠ 0 && index ≤ staticPart.length + t.nDynamic

/-- The index of the entry a key of the search index points to. -/
def keyToIndex (t : FieldLookupTable) (key : SearchEntry) : ℕ :=
  key.offset + t.indexOfChunk (key.chunk.getD 0) * chunkSize - t.beginPos + 1 + staticPart.length

/-- `indexOf(name, value)`: 0 where there is no such entry. -/
def indexOf (t : FieldLookupTable) (name value : Octets) : ℕ :=
  let staticPos := findInStaticPart ⟨name, value⟩ .nameAndValue
  if staticPart[staticPos]? = some ⟨name, value⟩ then staticPos + 1
  else if !t.useIndex then 0
  else match OrderedSet.lowerBound t.entryBelow t.searchIndex ⟨⟨name, value⟩, none, 0⟩ with
    | some key => if key.field.name = name ∧ key.field.value = value then t.keyToIndex key else 0
    | none => 0

/-- `indexOf(name)`: 0 where no entry has that name. -/
def indexOfName (t : FieldLookupTable) (name : Octets) : ℕ :=
  let staticPos := findInStaticPart ⟨name, []⟩ .nameOnly
  if (staticPart[staticPos]?).map (·.name) = some name then staticPos + 1
  else if !t.useIndex then 0
  else match OrderedSet.lowerBound t.entryBelow t.searchIndex ⟨⟨name, []⟩, none, 0⟩ with
    | some key => if key.field.name = name then t.keyToIndex key else 0
    | none => 0

/-- `field(index, &name, &value)`. -/
def field (t : FieldLookupTable) (index : ℕ) : Option HeaderField :=
  if !t.indexIsValid index then none
  else if index - 1 < staticPart.length then staticPart[index - 1]?
  else some (t.fieldAt (index - 1 - staticPart.length + t.beginPos))

def fieldName (t : FieldLookupTable) (index : ℕ) : Option Octets :=
  (t.field index).map (·.name)

def updateDynamicTableSize (t : FieldLookupTable) (size : ℕ) : Bool × FieldLookupTable :=
  if size = 0 then (true, { t.clearDynamicTable with tableCapacity := 0 })
  else if size > t.maxTableSize then (false, t)
  else
    let t := { t with tableCapacity := size }
    (true, evictWhile (fun t => t.dataSize > t.tableCapacity) t.nDynamic t)

def setMaxDynamicTableSize (t : FieldLookupTable) (size : ℕ) : FieldLookupTable :=
  { t with maxTableSize := size }

end FieldLookupTable

end HPack
