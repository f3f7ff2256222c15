import Mathlib.Algebra.Group.Int.Defs
import Mathlib.Algebra.Group.Nat.Defs

/-!
# The hash table of `qhash.h`

A `QHash` is nothing or a pointer to its `Data`: the buckets of the table, which lie in spans of
128, the number of entries, and the seed its hashes are computed with.  An entry is stored at
the first unused bucket from the one that its hash names.

A span keeps the offset of a node for each of its buckets, and the nodes in a storage of its
own; here it is the list of what its buckets hold.  The hash function is a parameter, and a
`Data` that is shared with other hashes is known by its reference count.
-/

namespace QHashPrivate

/-- Why an operation does not come to its end: an allocation that fails, an iterator that does
not designate an entry, an assertion of the table that fails, or a loop that has been around
the whole table. -/
inductive Fault where
  | badAlloc
  | badIterator
  | assertion
  | endless
  deriving DecidableEq, Repr

structure Node (K V : Type) where
  key : K
  value : V

namespace SpanConstants

def spanShift : ℕ := 7

def nEntries : ℕ := 1 <<< spanShift

def localBucketMask : ℕ := nEntries - 1

end SpanConstants

open SpanConstants

/-- What the buckets of a span hold. -/
abbrev Span (K V : Type) := List (Option (Node K V))

/-- A span whose buckets are unused. -/
def Span.empty (K V : Type) : Span K V :=
  List.replicate nEntries none

/-! ### The growth policy -/

namespace GrowthPolicy

/-- The number of leading zeros of a 64-bit number other than 0. -/
def countLeadingZeroBits (n : ℕ) : ℕ := 63 - n.log2

def bucketsForCapacity (requestedCapacity : ℕ) : ℕ :=
  if requestedCapacity ≤ 64 then nEntries
  else
    let count := countLeadingZeroBits requestedCapacity
    if count < 2 then 2 ^ 64 - 1 else 1 <<< (64 - count + 1)

def bucketForHash (nBuckets hash : ℕ) : ℕ :=
  hash &&& (nBuckets - 1)

end GrowthPolicy

open GrowthPolicy

/-! ### Tables -/

structure Data (K V : Type) where
  ref : ℕ
  size : ℕ
  numBuckets : ℕ
  seed : ℕ
  spans : List (Span K V)

structure Bucket where
  span : ℕ
  index : ℕ
  deriving DecidableEq, Repr

variable {K V : Type}

namespace Bucket

def ofBucketIndex (bucket : ℕ) : Bucket :=
  ⟨bucket >>> spanShift, bucket &&& localBucketMask⟩

def toBucketIndex (b : Bucket) : ℕ :=
  b.span <<< spanShift ||| b.index

/-- The next bucket; the first one behind the last one. -/
def advanceWrapped (d : Data K V) (b : Bucket) : Bucket :=
  if b.index + 1 = nEntries then
    if b.span + 1 = d.numBuckets >>> spanShift then ⟨0, 0⟩ else ⟨b.span + 1, 0⟩
  else ⟨b.span, b.index + 1⟩

end Bucket

/-- The size in octets of a span, of which `allocateSpans` asks for many. -/
def sizeofSpan : ℕ := 144

/-- The number of buckets that `allocateSpans` does not allocate more of. -/
def maxBucketCount : ℕ := ((2 ^ 63 - 1) / sizeofSpan) <<< spanShift

def allocateSpans (K V : Type) (numBuckets : ℕ) : Except Fault (List (Span K V)) :=
  if maxBucketCount < numBuckets then .error .badAlloc
  else .ok (List.replicate (numBuckets >>> spanShift) (Span.empty K V))

namespace Data

/-- What a bucket holds. -/
def node (d : Data K V) (b : Bucket) : Option (Node K V) :=
  (d.spans.getD b.span []).getD b.index none

def isUnused (d : Data K V) (b : Bucket) : Bool :=
  (d.node b).isNone

/-- A table with another content of a bucket. -/
def put (d : Data K V) (b : Bucket) (n : Option (Node K V)) : Data K V :=
  { d with spans := d.spans.modify b.span (·.set b.index n) }

/-- `Span::insert`, with the node that the caller creates in the storage. -/
def insert (d : Data K V) (b : Bucket) (n : Node K V) : Except Fault (Data K V) :=
  if d.isUnused b then .ok (d.put b (some n)) else .error .assertion

/-- `new Data(reserve)`. -/
def create (K V : Type) (globalSeed reserve : ℕ) : Except Fault (Data K V) := do
  let spans ← allocateSpans K V (bucketsForCapacity reserve)
  pure ⟨1, 0, bucketsForCapacity reserve, globalSeed, spans⟩

def shouldGrow (d : Data K V) : Bool :=
  d.numBuckets >>> 1 ≤ d.size

variable [DecidableEq K]

/-- The loop of `findBucketWithHash`, for as many turns as there are buckets. -/
def findFrom (d : Data K V) (key : K) : ℕ → Bucket → Except Fault Bucket
  | 0, _ => .error .endless
  | turns + 1, bucket =>
    match d.node bucket with
    | none => .ok bucket
    | some n =>
      if n.key = key then .ok bucket else findFrom d key turns (bucket.advanceWrapped d)

def findBucketWithHash (d : Data K V) (key : K) (hash : ℕ) : Except Fault Bucket :=
  d.findFrom key d.numBuckets (.ofBucketIndex (bucketForHash d.numBuckets hash))

variable (hash : K → ℕ → ℕ)

def findBucket (d : Data K V) (key : K) : Except Fault Bucket :=
  d.findBucketWithHash key (hash key d.seed)

/-- One turn of the loop over the old buckets. -/
def reinsertEntry (d : Data K V) : Option (Node K V) → Except Fault (Data K V)
  | none => pure d
  | some n => do
    let it ← d.findBucket hash n.key
    d.insert it n

/-- The loop over the old buckets, which `rehash` and the copy into a table of another size
have in common. -/
def reinsert (d : Data K V) (spans : List (Span K V)) : Except Fault (Data K V) :=
  spans.foldlM (fun d span => span.foldlM (reinsertEntry hash) d) d

def rehash (sizeHint : ℕ) (d : Data K V) : Except Fault (Data K V) := do
  let newBucketCount := bucketsForCapacity (if sizeHint = 0 then d.size else sizeHint)
  let spans ← allocateSpans K V newBucketCount
  reinsert hash { d with spans := spans, numBuckets := newBucketCount } d.spans

/-- `Data(const Data &other)`. -/
def copy (other : Data K V) : Except Fault (Data K V) := do
  let _ ← allocateSpans K V other.numBuckets
  pure { other with ref := 1 }

/-- `Data(const Data &other, size_t reserved)`. -/
def copyReserved (other : Data K V) (reserved : ℕ) : Except Fault (Data K V) := do
  let numBuckets := bucketsForCapacity (max other.size reserved)
  let spans ← allocateSpans K V numBuckets
  reinsert hash ⟨1, other.size, numBuckets, other.seed, spans⟩ other.spans

/-- The bucket that a key is inserted at, or found at, and the table, which has grown where that
was due and has counted the entry that the caller creates at the bucket. -/
def findOrInsert (key : K) (d : Data K V) : Except Fault (Bucket × Bool × Data K V) := do
  let h := hash key d.seed
  let it ← if 0 < d.numBuckets then some <$> d.findBucketWithHash key h else pure none
  match it.filter (fun it => !d.isUnused it) with
  | some it => pure (it, true, d)
  | none =>
    let (it, d) ←
      if d.shouldGrow then do
        let d ← d.rehash hash (d.size + 1)
        let it ← d.findBucketWithHash key h
        pure (some it, d)
      else pure (it, d)
    match it.filter d.isUnused with
    | none => throw .assertion
    | some it => pure (it, false, { d with size := d.size + 1 })

/-- The inner loop of `erase`: whether the walk from a bucket, for as many turns as there are
buckets, comes to `bucket` before it comes to `next`. -/
def passes (d : Data K V) (next bucket : Bucket) : ℕ → Bucket → Except Fault Bool
  | 0, _ => .error .endless
  | turns + 1, newBucket =>
    if newBucket = next then .ok false
    else if newBucket = bucket then .ok true
    else passes d next bucket turns (newBucket.advanceWrapped d)

/-- The outer loop of `erase`, for as many turns as there are buckets: entries behind the hole
at `bucket` that have been probed past it are moved into it. -/
def closeHole : ℕ → Bucket → Bucket → Data K V → Except Fault (Data K V)
  | 0, _, _, _ => .error .endless
  | turns + 1, bucket, next, d => do
    let next := next.advanceWrapped d
    match d.node next with
    | none => pure d
    | some n =>
      let newBucket := .ofBucketIndex (bucketForHash d.numBuckets (hash n.key d.seed))
      if ← d.passes next bucket d.numBuckets newBucket then
        closeHole turns next next ((d.put next none).put bucket (some n))
      else closeHole turns bucket next d

def erase (bucket : Bucket) (d : Data K V) : Except Fault (Data K V) :=
  if d.isUnused bucket then .error .assertion
  else
    closeHole hash d.numBuckets bucket bucket { d.put bucket none with size := d.size - 1 }

/-- `Data::detached(d)`. -/
def detached (globalSeed : ℕ) : Option (Data K V) → Except Fault (Data K V)
  | none => create K V globalSeed 0
  | some d => d.copy

/-- `Data::detached(d, size)`. -/
def detachedReserved (globalSeed size : ℕ) : Option (Data K V) → Except Fault (Data K V)
  | none => create K V globalSeed size
  | some d => d.copyReserved hash size

/-- An iterator to an entry, with the entry. -/
structure Iterator (K V : Type) where
  bucket : ℕ
  node : Node K V

/-- The iterator to the entry at a bucket. -/
def iterator (d : Data K V) (b : Bucket) : Except Fault (Iterator K V) :=
  match d.node b with
  | none => .error .assertion
  | some n => .ok ⟨b.toBucketIndex, n⟩

/-- The loop of the increment of an iterator, for as many turns as there are buckets. -/
def nextIterator (d : Data K V) : ℕ → ℕ → Except Fault (Option (Iterator K V))
  | 0, _ => .error .endless
  | turns + 1, bucket =>
    if bucket + 1 = d.numBuckets then .ok none
    else
      match d.node (.ofBucketIndex (bucket + 1)) with
      | none => nextIterator d turns (bucket + 1)
      | some n => .ok (some ⟨bucket + 1, n⟩)

end Data

end QHashPrivate

open QHashPrivate

/-- The only field of a hash is the pointer to its data. -/
structure QHash (K V : Type) where
  d : Option (Data K V)

namespace QHash

variable {K V : Type}

def isEmpty (q : QHash K V) : Bool :=
  match q.d with
  | none => true
  | some d => d.size = 0

def capacity (q : QHash K V) : ℕ :=
  match q.d with
  | none => 0
  | some d => d.numBuckets >>> 1

def isDetached (q : QHash K V) : Bool :=
  match q.d with
  | none => false
  | some d => d.ref = 1 ∨ d.ref = 0

/-! ### The operations

The operations return the data that the hash then has. -/

/-- `detach`. -/
def detach (globalSeed : ℕ) (q : QHash K V) : Except Fault (Data K V) :=
  match q.d with
  | none => Data.detached globalSeed none
  | some d => if q.isDetached then pure d else Data.detached globalSeed (some d)

/-- The data of a hash, which are created where there are none. -/
def createData (globalSeed : ℕ) (q : QHash K V) : Except Fault (Data K V) :=
  match q.d with
  | none => q.detach globalSeed
  | some d => pure d

variable [DecidableEq K] (hash : K → ℕ → ℕ)

def emplaceHelper (d : Data K V) (key : K) (value : V) :
    Except Fault (Data K V × Data.Iterator K V) := do
  let (it, initialized, d) ← d.findOrInsert hash key
  if initialized then
    -- The entry keeps its key.
    let d := d.put it ((d.node it).map fun n => { n with value := value })
    pure (d, ← d.iterator it)
  else
    let d ← d.insert it ⟨key, value⟩
    pure (d, ← d.iterator it)

variable (globalSeed : ℕ)

def emplace (key : K) (value : V) (q : QHash K V) :
    Except Fault (Data K V × Data.Iterator K V) := do
  let d ← q.detach globalSeed
  emplaceHelper hash d key value

/-- The bucket of a key, whether its entry is to be created there, and the data, which have been
detached where that was due, and have grown then. -/
def detachForEmplace (key : K) (d : Data K V) : Except Fault (Data K V × Bucket × Bool) := do
  let h := hash key d.seed
  let bucket ← d.findBucketWithHash key h
  let shouldInsert := d.isUnused bucket
  if !isDetached ⟨some d⟩ || (shouldInsert && d.shouldGrow) then
    if shouldInsert && d.shouldGrow then
      let d ← Data.detachedReserved hash globalSeed (d.size + 1) (some d)
      let bucket ← d.findBucketWithHash key h
      pure (d, bucket, shouldInsert)
    else
      let d ← Data.detached globalSeed (some d)
      pure (d, .ofBucketIndex bucket.toBucketIndex, shouldInsert)
  else pure (d, bucket, shouldInsert)

def tryEmplace (key : K) (value : V) (q : QHash K V) :
    Except Fault (Data K V × Data.Iterator K V × Bool) := do
  let d ← q.createData globalSeed
  let (d, bucket, shouldInsert) ← detachForEmplace hash globalSeed key d
  if shouldInsert then
    let d ← d.insert bucket ⟨key, value⟩
    let d := { d with size := d.size + 1 }
    pure (d, ← d.iterator bucket, true)
  else pure (d, ← d.iterator bucket, false)

def remove (key : K) (q : QHash K V) : Except Fault (QHash K V × Bool) :=
  match q.d with
  | none => pure (q, false)
  | some d =>
    if q.isEmpty then pure (q, false)
    else do
      let it ← d.findBucket hash key
      if d.isUnused it then pure (q, false)
      else
        let d ← q.detach globalSeed
        let d ← d.erase hash (.ofBucketIndex it.toBucketIndex)
        pure (⟨some d⟩, true)

def take [Inhabited V] (key : K) (q : QHash K V) : Except Fault (QHash K V × V) :=
  match q.d with
  | none => pure (q, default)
  | some d =>
    if q.isEmpty then pure (q, default)
    else do
      let it ← d.findBucket hash key
      let d ← q.detach globalSeed
      match d.node (.ofBucketIndex it.toBucketIndex) with
      | none => pure (⟨some d⟩, default)
      | some n =>
        let d ← d.erase hash (.ofBucketIndex it.toBucketIndex)
        pure (⟨some d⟩, n.value)

/-- Erases the entry that an iterator designates, and returns it with the iterator to the next
one. -/
def erase (bucket : ℕ) (q : QHash K V) :
    Except Fault (Data K V × Node K V × Option (Data.Iterator K V)) :=
  match q.d.bind (fun d => if bucket < d.numBuckets then d.node (.ofBucketIndex bucket) else none) with
  | none => throw .badIterator
  | some n => do
    let d ← q.detach globalSeed
    let d ← d.erase hash (.ofBucketIndex bucket)
    if bucket = d.numBuckets - 1 ∨ d.isUnused (.ofBucketIndex bucket) then
      pure (d, n, ← d.nextIterator d.numBuckets bucket)
    else pure (d, n, some (← d.iterator (.ofBucketIndex bucket)))

def reserve (size : ℤ) (q : QHash K V) : Except Fault (QHash K V) :=
  if size ≠ 0 ∧ size ≤ q.capacity then pure q
  else
    match q.d with
    | none => do pure ⟨some (← Data.detachedReserved hash globalSeed size.toNat none)⟩
    | some d =>
      if q.isDetached then do pure ⟨some (← d.rehash hash size.toNat)⟩
      else do pure ⟨some (← Data.detachedReserved hash globalSeed size.toNat (some d))⟩

def squeeze (q : QHash K V) : Except Fault (QHash K V) :=
  if q.capacity = 0 then pure q else q.reserve hash globalSeed 0

/-! ### Runs -/

/-- What is done to a hash.  Between the operations, a copy of the hash can be made, which shares
its data, and be dropped. -/
inductive Op (K V : Type) where
  | insert (key : K) (value : V)
  | emplace (key : K) (value : V)
  | tryEmplace (key : K) (value : V)
  | remove (key : K)
  | take (key : K)
  | erase (bucket : ℕ)
  | reserve (size : ℤ)
  | squeeze
  | share
  | unshare

/-- What an operation returns. -/
inductive Result (K V : Type) where
  | iterator (it : Data.Iterator K V)
  | emplaced (it : Data.Iterator K V) (inserted : Bool)
  | removed (found : Bool)
  | taken (value : V)
  | erased (node : Node K V) (next : Option (Data.Iterator K V))
  | done

def step [Inhabited V] (q : QHash K V) : Op K V → Except Fault (QHash K V × Result K V)
  | .insert key value | .emplace key value => do
    let (d, it) ← q.emplace hash globalSeed key value
    pure (⟨some d⟩, .iterator it)
  | .tryEmplace key value => do
    let (d, it, inserted) ← q.tryEmplace hash globalSeed key value
    pure (⟨some d⟩, .emplaced it inserted)
  | .remove key => do
    let (q, found) ← q.remove hash globalSeed key
    pure (q, .removed found)
  | .take key => do
    let (q, value) ← q.take hash globalSeed key
    pure (q, .taken value)
  | .erase bucket => do
    let (d, n, next) ← q.erase hash globalSeed bucket
    pure (⟨some d⟩, .erased n next)
  | .reserve size => do pure (← q.reserve hash globalSeed size, .done)
  | .squeeze => do pure (← q.squeeze hash globalSeed, .done)
  | .share => pure (⟨q.d.map fun d => { d with ref := d.ref + 1 }⟩, .done)
  | .unshare =>
    pure (⟨q.d.map fun d => if d.ref ≤ 1 then d else { d with ref := d.ref - 1 }⟩, .done)

/-- A run from a hash, with what the operations return. -/
def run [Inhabited V] (q : QHash K V) :
    List (Op K V) → Except Fault (QHash K V × List (Result K V))
  | [] => pure (q, [])
  | op :: ops => do
    let (q, result) ← q.step hash globalSeed op
    let (q, results) ← run q ops
    pure (q, result :: results)

end QHash
