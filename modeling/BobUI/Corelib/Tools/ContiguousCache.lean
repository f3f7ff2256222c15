import BobUI.Library.IndexedRings

/-!
# Contiguous caches

`QContiguousCache`, whose elements have indices in a row and lie in an array that they fill around
its end.  An object is found from `start`, or from its index modulo the capacity.
-/

/-- `QContiguousCache`; the array holds an object or none. -/
structure QContiguousCache (T : Type) where
  alloc : ℕ
  count : ℕ
  start : ℕ
  offset : ℤ
  array : List (Option T)

namespace QContiguousCache

variable {T : Type}

/-- The largest `qsizetype`. -/
def maxSize : ℤ := 2 ^ 63 - 1

/-- `QContiguousCache(qsizetype)`. -/
def new (T : Type) (capacity : ℕ) : QContiguousCache T where
  alloc := capacity
  count := 0
  start := 0
  offset := 0
  array := List.replicate capacity none

/-! ### The array -/

/-- `a % b`; `none` is a division by zero. -/
def modulo (a b : ℕ) : Option ℕ :=
  if b = 0 then none else some (a % b)

/-- `pos % alloc`, as a place of the array; `none` is a division by zero, or a place in front of the
array. -/
def indexPlace (pos : ℤ) (alloc : ℕ) : Option ℕ :=
  if alloc = 0 then none
  else if 0 ≤ pos.tmod alloc then some (pos.tmod alloc).toNat
  else none

/-- Reads an object; `none` is a place outside, or without an object. -/
def read (array : List (Option T)) (place : ℕ) : Option T :=
  array[place]?.join

/-- Constructs or assigns an object; `none` is a place outside. -/
def construct (array : List (Option T)) (place : ℕ) (value : T) : Option (List (Option T)) :=
  if place < array.length then some (array.set place (some value)) else none

/-- Destroys an object; `none` is a place outside. -/
def destroy (array : List (Option T)) (place : ℕ) : Option (List (Option T)) :=
  if place < array.length then some (array.set place none) else none

/-- The loop of `clear`. -/
def destroyAll (alloc : ℕ) : (oldcount i : ℕ) → List (Option T) → Option (List (Option T))
  | 0, _, array => some array
  | oldcount + 1, i, array => do
    let array ← destroy array i
    destroyAll alloc oldcount (if i + 1 = alloc then 0 else i + 1) array

/-- The loop of `setCapacity`. -/
def copyDown (old : List (Option T)) (alloc asize : ℕ) :
    (oldcount src dest : ℕ) → List (Option T) → Option (List (Option T))
  | 0, _, _, array => some array
  | oldcount + 1, src, dest, array => do
    let value ← read old src
    let array ← construct array dest value
    copyDown old alloc asize oldcount ((if src = 0 then alloc else src) - 1)
      ((if dest = 0 then asize else dest) - 1) array

/-! ### Queries -/

def containsIndex (c : QContiguousCache T) (pos : ℤ) : Bool :=
  c.offset ≤ pos && pos - c.offset < c.count

def firstIndex (c : QContiguousCache T) : ℤ := c.offset

def lastIndex (c : QContiguousCache T) : ℤ := c.offset + c.count - 1

/-- `at`, where the index is one of an element. -/
def at? (c : QContiguousCache T) (pos : ℤ) : Option T := do
  let place ← indexPlace pos c.alloc
  read c.array place

/-- `first`, of a cache that is not empty. -/
def first? (c : QContiguousCache T) : Option T :=
  read c.array c.start

/-- `last`, of a cache that is not empty. -/
def last? (c : QContiguousCache T) : Option T := do
  let place ← modulo (c.start + c.count - 1) c.alloc
  read c.array place

/-- `areIndexesValid`; `none` is a division by zero. -/
def areIndexesValid (c : QContiguousCache T) : Option Bool :=
  if 0 ≤ c.offset ∧ c.offset < maxSize - c.count then
    if c.alloc = 0 then none else some (c.offset.tmod c.alloc = c.start)
  else some false

/-! ### Operations -/

def append (c : QContiguousCache T) (value : T) : Option (QContiguousCache T) :=
  if c.alloc = 0 then some c
  else if c.count = c.alloc then do
    let place ← modulo (c.start + c.count) c.alloc
    let array ← destroy c.array place
    let array ← construct array place value
    let start ← modulo (c.start + 1) c.alloc
    some { c with start := start, offset := c.offset + 1, array := array }
  else do
    let place ← modulo (c.start + c.count) c.alloc
    let array ← construct c.array place value
    some { c with count := c.count + 1, array := array }

def prepend (c : QContiguousCache T) (value : T) : Option (QContiguousCache T) :=
  if c.alloc = 0 then some c
  else
    let start := if c.start ≠ 0 then c.start - 1 else c.alloc - 1
    if c.count ≠ c.alloc then do
      let array ← construct c.array start value
      some { c with start := start, offset := c.offset - 1, count := c.count + 1, array := array }
    else do
      let array ← destroy c.array start
      let array ← construct array start value
      some { c with start := start, offset := c.offset - 1, array := array }

/-- `clear`. -/
def clear (c : QContiguousCache T) : Option (QContiguousCache T) := do
  let array ← destroyAll c.alloc c.count c.start c.array
  some { c with count := 0, start := 0, offset := 0, array := array }

/-- `insert`, of an index that is not negative. -/
def insert (c : QContiguousCache T) (pos : ℤ) (value : T) : Option (QContiguousCache T) :=
  if c.alloc = 0 then some c
  else if c.containsIndex pos then do
    let place ← indexPlace pos c.alloc
    let array ← construct c.array place value
    some { c with array := array }
  else if pos = c.offset - 1 then c.prepend value
  else if pos = c.offset + c.count then c.append value
  else do
    let c ← c.clear
    let start ← indexPlace pos c.alloc
    let array ← construct c.array start value
    some { c with offset := pos, start := start, count := 1, array := array }

/-- `removeFirst`, of a cache that is not empty. -/
def removeFirst (c : QContiguousCache T) : Option (QContiguousCache T) := do
  let array ← destroy c.array c.start
  let start ← modulo (c.start + 1) c.alloc
  some { c with count := c.count - 1, start := start, offset := c.offset + 1, array := array }

/-- `removeLast`, of a cache that is not empty. -/
def removeLast (c : QContiguousCache T) : Option (QContiguousCache T) := do
  let place ← modulo (c.start + (c.count - 1)) c.alloc
  let array ← destroy c.array place
  some { c with count := c.count - 1, array := array }

/-- The start of an array of another capacity. -/
def startFor (offset : ℤ) (asize : ℕ) : Option ℕ :=
  if asize = 0 then some 0 else indexPlace offset asize

/-- The array of another capacity, with the last `count` elements. -/
def copyElements (c : QContiguousCache T) (asize count start : ℕ) : Option (List (Option T)) :=
  if count = 0 then some (List.replicate asize none)
  else do
    let dest ← modulo (start + count - 1) asize
    let src ← modulo (c.start + c.count - 1) c.alloc
    copyDown c.array c.alloc asize count src dest (List.replicate asize none)

def setCapacity (c : QContiguousCache T) (asize : ℕ) : Option (QContiguousCache T) :=
  if asize = c.alloc then some c
  else do
    let count := min c.count asize
    let offset := c.offset + c.count - count
    let start ← startFor offset asize
    let array ← c.copyElements asize count start
    some { alloc := asize, count := count, start := start, offset := offset, array := array }

def normalizeIndexes (c : QContiguousCache T) : QContiguousCache T :=
  { c with offset := c.start }

/-! ### Sequences of operations -/

inductive Operation (T : Type) where
  | append (value : T)
  | prepend (value : T)
  | insert (pos : ℤ) (value : T)
  | removeFirst
  | removeLast
  | setCapacity (size : ℕ)
  | normalizeIndexes

def apply (c : QContiguousCache T) : Operation T → Option (QContiguousCache T)
  | .append value => c.append value
  | .prepend value => c.prepend value
  | .insert pos value => c.insert pos value
  | .removeFirst => c.removeFirst
  | .removeLast => c.removeLast
  | .setCapacity size => c.setCapacity size
  | .normalizeIndexes => some c.normalizeIndexes

/-- What an operation asserts of its argument or of the cache. -/
def Asserts (c : QContiguousCache T) : Operation T → Prop
  | .insert pos _ => 0 ≤ pos
  | .removeFirst | .removeLast => 0 < c.count
  | _ => True

/-- The indices are valid, which need not be asked where that would divide by zero, or this is
`normalizeIndexes`. -/
def Allowed (c : QContiguousCache T) (operation : Operation T) : Prop :=
  c.Asserts operation ∧ (c.areIndexesValid = some false → operation = .normalizeIndexes)

def run (c : QContiguousCache T) : List (Operation T) → Option (QContiguousCache T)
  | [] => some c
  | operation :: operations => (c.apply operation).bind fun c => c.run operations

def AllAllowed (c : QContiguousCache T) : List (Operation T) → Prop
  | [] => True
  | operation :: operations =>
    c.Allowed operation ∧ ∀ next, c.apply operation = some next → next.AllAllowed operations

end QContiguousCache
