import BobUI.Corelib.Text.Strings
import Mathlib.Algebra.Order.Group.Int

/-!
# Ring buffers

`QRingChunk` and `QRingBuffer` of `qringbuffer.cpp`.  A chunk is an array of which a part is in
use; what the array holds outside of this part is never read.  Functions that give the caller
memory to write to take the octets that are then found there.
-/

/-- A chunk: `headOffset` octets in front of the part that is in use, the octets of this part,
and the octets behind it; and whether the array has other owners. -/
structure QRingChunk where
  headOffset : ℕ
  data : QByteArray
  available : ℕ
  shared : Bool
deriving DecidableEq, Repr

namespace QRingChunk

/-- `QRingChunk(qsizetype)`. -/
def ofSize (alloc : ℕ) : QRingChunk :=
  ⟨0, [], alloc, false⟩

/-- `QRingChunk(const QByteArray &)`; the array may be shared with the caller. -/
def ofArray (qba : QByteArray) (shared : Bool) : QRingChunk :=
  ⟨0, qba, 0, shared⟩

/-- A chunk without an array; a null array counts as shared. -/
def null : QRingChunk :=
  ⟨0, [], 0, true⟩

def size (c : QRingChunk) : ℕ := c.data.length

def tailOffset (c : QRingChunk) : ℕ := c.headOffset + c.size

def capacity (c : QRingChunk) : ℕ := c.tailOffset + c.available

def allocate (c : QRingChunk) (alloc : ℕ) : QRingChunk :=
  if c.capacity < alloc ∨ c.shared then
    { c with available := alloc - c.tailOffset, shared := false }
  else c

def advance (c : QRingChunk) (offset : ℕ) : QRingChunk :=
  { c with headOffset := c.headOffset + offset, data := c.data.drop offset }

/-- `advance` by a negative offset, where the octets are found. -/
def advanceBack (c : QRingChunk) (octets : QByteArray) : Option QRingChunk :=
  if octets.length ≤ c.headOffset then
    some { c with headOffset := c.headOffset - octets.length, data := octets ++ c.data }
  else none

/-- `grow`, where the octets are found. -/
def grow (c : QRingChunk) (octets : QByteArray) : Option QRingChunk :=
  if octets.length ≤ c.available then
    some { c with data := c.data ++ octets, available := c.available - octets.length }
  else none

/-- `grow` by a negative offset. -/
def growBack (c : QRingChunk) (offset : ℕ) : QRingChunk :=
  { c with data := c.data.take (c.size - offset), available := c.available + min offset c.size }

def reset (c : QRingChunk) : QRingChunk :=
  ⟨0, [], c.capacity, c.shared⟩

end QRingChunk

/-- A ring buffer. -/
structure QRingBuffer where
  buffers : List QRingChunk
  bufferSize : ℤ
  basicBlockSize : ℤ
deriving DecidableEq, Repr

namespace QRingBuffer

def new (growth : ℤ) : QRingBuffer where
  buffers := []
  bufferSize := 0
  basicBlockSize := growth

/-- The octets of the chunks. -/
def contents (b : QRingBuffer) : QByteArray :=
  (b.buffers.map (·.data)).flatten

/-- The number of octets of a new array. -/
def chunkSize (b : QRingBuffer) (bytes : ℕ) : ℕ :=
  (max b.basicBlockSize bytes).toNat

/-- The loop of `free` and `chop` over the chunks, from the end that is given up: `shrink`
takes octets from a chunk at this end.  A single block is kept if it is small; `none` where
the loop runs out of chunks. -/
def release (shrink : QRingChunk → ℕ → QRingChunk) (basicBlockSize : ℤ) :
    List QRingChunk → (bytes bufferSize : ℤ) → Option (List QRingChunk × ℤ)
  | [], bytes, bufferSize => if bytes ≤ 0 then some ([], bufferSize) else none
  | chunk :: chunks, bytes, bufferSize =>
    if bytes ≤ 0 then some (chunk :: chunks, bufferSize)
    else if chunks = [] ∨ (chunk.size : ℤ) > bytes then
      if bufferSize = bytes then
        if chunk.capacity ≤ basicBlockSize ∧ !chunk.shared then some (chunk.reset :: chunks, 0)
        else some ([.null], 0)
      else some (shrink chunk bytes.toNat :: chunks, bufferSize - bytes)
    else release shrink basicBlockSize chunks (bytes - chunk.size) (bufferSize - chunk.size)

def free (b : QRingBuffer) (bytes : ℤ) : Option QRingBuffer := do
  let (buffers, bufferSize) ← release .advance b.basicBlockSize b.buffers bytes b.bufferSize
  some { b with buffers := buffers, bufferSize := bufferSize }

def chop (b : QRingBuffer) (bytes : ℤ) : Option QRingBuffer := do
  let (buffers, bufferSize) ←
    release .growBack b.basicBlockSize b.buffers.reverse bytes b.bufferSize
  some { b with buffers := buffers.reverse, bufferSize := bufferSize }

def truncate (b : QRingBuffer) (pos : ℤ) : Option QRingBuffer :=
  b.chop (b.bufferSize - pos)

/-- The last chunk takes octets. -/
def growLast (b : QRingBuffer) (octets : QByteArray) : Option QRingBuffer :=
  match b.buffers.getLast? with
  | none => none
  | some chunk => do
    let chunk ← chunk.grow octets
    some { b with
      buffers := b.buffers.dropLast ++ [chunk]
      bufferSize := b.bufferSize + octets.length }

/-- `reserve`, with the octets that are found in the memory once the caller has written to
it. -/
def reserve (b : QRingBuffer) (octets : QByteArray) : Option QRingBuffer :=
  let chunkSize := b.chunkSize octets.length
  let fresh : QRingBuffer := { b with buffers := b.buffers ++ [.ofSize chunkSize] }
  if b.bufferSize = 0 then
    match b.buffers with
    | [] => fresh.growLast octets
    | first :: chunks =>
      growLast { b with buffers := first.allocate chunkSize :: chunks } octets
  else
    match b.buffers.getLast? with
    | none => none
    | some chunk =>
      if b.basicBlockSize = 0 ∨ chunk.shared ∨ octets.length > chunk.available then
        fresh.growLast octets
      else b.growLast octets

/-- The first chunk takes octets at the end of its new array. -/
def growFirst (b : QRingBuffer) (chunkSize : ℕ) (octets : QByteArray) : Option QRingBuffer :=
  match b.buffers with
  | [] => none
  | chunk :: chunks => do
    let room := chunkSize - octets.length
    let chunk ← chunk.grow (List.replicate room 0 ++ octets)
    some { b with
      buffers := chunk.advance room :: chunks
      bufferSize := b.bufferSize + octets.length }

/-- `reserveFront`, with the octets that are found in the memory once the caller has written
to it. -/
def reserveFront (b : QRingBuffer) (octets : QByteArray) : Option QRingBuffer :=
  let chunkSize := b.chunkSize octets.length
  let fresh : QRingBuffer := { b with buffers := .ofSize chunkSize :: b.buffers }
  if b.bufferSize = 0 then
    match b.buffers with
    | [] => fresh.growFirst chunkSize octets
    | first :: chunks =>
      growFirst { b with buffers := first.allocate chunkSize :: chunks } chunkSize octets
  else
    match b.buffers with
    | [] => none
    | chunk :: chunks =>
      if b.basicBlockSize = 0 ∨ chunk.shared ∨ octets.length > chunk.headOffset then
        fresh.growFirst chunkSize octets
      else do
        let chunk ← chunk.advanceBack octets
        some { b with buffers := chunk :: chunks, bufferSize := b.bufferSize + octets.length }

def putChar (b : QRingBuffer) (c : UInt8) : Option QRingBuffer :=
  b.reserve [c]

def ungetChar (b : QRingBuffer) (c : UInt8) : Option QRingBuffer :=
  b.reserveFront [c]

def clear (b : QRingBuffer) : QRingBuffer :=
  match b.buffers with
  | [] => b
  | _ :: _ => { b with buffers := [.null], bufferSize := 0 }

/-- `append(const char *, qint64)`. -/
def append (b : QRingBuffer) (data : QByteArray) : Option QRingBuffer :=
  if data = [] then some b else b.reserve data

/-- `append(const QByteArray &)`. -/
def appendArray (b : QRingBuffer) (qba : QByteArray) (shared : Bool) : QRingBuffer :=
  { b with
    buffers :=
      if b.bufferSize ≠ 0 ∨ b.buffers = [] then b.buffers ++ [.ofArray qba shared]
      else b.buffers.dropLast ++ [.ofArray qba shared]
    bufferSize := b.bufferSize + qba.length }

def skip (b : QRingBuffer) (length : ℤ) : Option (ℤ × QRingBuffer) := do
  let bytesToSkip := min length b.bufferSize
  let b ← b.free bytesToSkip
  some (bytesToSkip, b)

/-- `nextDataBlockSize` and `readPointer`: the octets of the first chunk. -/
def nextDataBlock (b : QRingBuffer) : Option QByteArray :=
  if b.bufferSize = 0 then some []
  else b.buffers.head?.map (·.data)

/-- The loop of `read(char *, qint64)`; `none` where it has not ended after `turns` turns. -/
def readLoop : (turns : ℕ) → QRingBuffer → (bytesToRead : ℤ) → QByteArray →
    Option (QByteArray × QRingBuffer)
  | 0, b, bytesToRead, read =>
    if (read.length : ℤ) < bytesToRead then none else some (read, b)
  | turns + 1, b, bytesToRead, read =>
    if (read.length : ℤ) < bytesToRead then do
      let block ← b.nextDataBlock
      let bytesToReadFromThisBlock := min (bytesToRead - read.length) block.length
      let b ← b.free bytesToReadFromThisBlock
      readLoop turns b bytesToRead (read ++ block.take bytesToReadFromThisBlock.toNat)
    else some (read, b)

/-- `read(char *, qint64)`, with the octets it writes. -/
def read (turns : ℕ) (b : QRingBuffer) (maxLength : ℤ) : Option (QByteArray × QRingBuffer) :=
  readLoop turns b (min b.bufferSize maxLength) []

/-- `read()`. -/
def readFirst (b : QRingBuffer) : Option (QByteArray × QRingBuffer) :=
  if b.bufferSize = 0 then some ([], b)
  else
    match b.buffers with
    | [] => none
    | chunk :: chunks =>
      some (chunk.data, { b with buffers := chunks, bufferSize := b.bufferSize - chunk.size })

/-- `getChar`: the octet, or -1. -/
def getChar (b : QRingBuffer) : Option (ℤ × QRingBuffer) :=
  if b.bufferSize = 0 then some (-1, b)
  else
    match b.nextDataBlock with
    | some (c :: _) => do
      let b ← b.free 1
      some ((c.toNat : ℤ), b)
    | _ => none

/-! ### Calls -/

/-- The calls of a ring buffer; `unshare` stands for another owner that gives up the array of
a chunk. -/
inductive Call where
  | append (data : QByteArray)
  | appendArray (qba : QByteArray) (shared : Bool)
  | reserve (octets : QByteArray)
  | reserveFront (octets : QByteArray)
  | putChar (c : UInt8)
  | ungetChar (c : UInt8)
  | chop (bytes : ℤ)
  | truncate (pos : ℤ)
  | free (bytes : ℤ)
  | skip (length : ℤ)
  | read (maxLength : ℤ)
  | readFirst
  | getChar
  | clear
  | setChunkSize (size : ℤ)
  | unshare (index : ℕ)
deriving DecidableEq, Repr

/-- What a call returns. -/
inductive Returned where
  | nothing
  | octets (octets : QByteArray)
  | number (n : ℤ)
deriving DecidableEq, Repr

/-- The assertions on the arguments of a call. -/
def Call.Valid (size : ℤ) : Call → Prop
  | .reserve octets | .reserveFront octets => octets ≠ []
  | .chop bytes | .free bytes => bytes ≤ size
  | .truncate pos => 0 ≤ pos ∧ pos ≤ size
  | _ => True

/-- A call; `turns` bounds the loop of `read`. -/
def perform (turns : ℕ) (b : QRingBuffer) : Call → Option (Returned × QRingBuffer)
  | .append data => (b.append data).map (.nothing, ·)
  | .appendArray qba shared => some (.nothing, b.appendArray qba shared)
  | .reserve octets => (b.reserve octets).map (.nothing, ·)
  | .reserveFront octets => (b.reserveFront octets).map (.nothing, ·)
  | .putChar c => (b.putChar c).map (.nothing, ·)
  | .ungetChar c => (b.ungetChar c).map (.nothing, ·)
  | .chop bytes => (b.chop bytes).map (.nothing, ·)
  | .truncate pos => (b.truncate pos).map (.nothing, ·)
  | .free bytes => (b.free bytes).map (.nothing, ·)
  | .skip length => (b.skip length).map fun (n, b) => (.number n, b)
  | .read maxLength => (b.read turns maxLength).map fun (octets, b) => (.octets octets, b)
  | .readFirst => b.readFirst.map fun (octets, b) => (.octets octets, b)
  | .getChar => b.getChar.map fun (n, b) => (.number n, b)
  | .clear => some (.nothing, b.clear)
  | .setChunkSize size => some (.nothing, { b with basicBlockSize := size })
  | .unshare index =>
    some (.nothing, { b with buffers := b.buffers.modify index ({ · with shared := false }) })

/-- A run of calls; `none` where one of them fails or does not end. -/
def run (turns : ℕ) : List Call → QRingBuffer → Option (List Returned × QRingBuffer)
  | [], b => some ([], b)
  | call :: calls, b => do
    let (returned, b) ← b.perform turns call
    let (results, b) ← run turns calls b
    some (returned :: results, b)

/-- The calls end, with these results and this buffer. -/
def Runs (b : QRingBuffer) (calls : List Call) (results : List Returned) (b' : QRingBuffer) : Prop :=
  ∃ least, ∀ turns, least ≤ turns → run turns calls b = some (results, b')

end QRingBuffer
