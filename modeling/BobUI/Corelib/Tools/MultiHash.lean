import BobUI.Corelib.Tools.HashRuns
import BobUI.Library.SharedData

/-!
# The hash with many values for a key

A `QMultiHash` is a pointer to a table of `qhash.h` whose nodes have chains of values, and the
number of values.  Copies of it share the table, which is copied before one of them changes it.

A chain is the list of its values.  The objects of a program are numbered by a finite type; the
object `none` is the local variable `copy` of `unite`.  The copies that keep the arguments of
`emplace` and `operator[]` alive have no other effect, and are left out.
-/

open QHashPrivate SharedData

instance {K V : Type} : RefCounted (Data K V) where
  ref := Data.ref
  withRef n d := { d with ref := n }
  ref_withRef _ _ := rfl
  withRef_ref _ := rfl
  withRef_withRef _ _ _ := rfl

namespace QMultiHash

/-- The tables and the objects, each of which has the number of its values. -/
abbrev Memory (ι K V : Type) := Store (Option ι) (Data K (List V)) ℤ

/-- The bucket of a node, and the number of the entry in its chain. -/
structure Iterator where
  bucket : ℕ
  e : ℕ
  deriving DecidableEq, Repr

variable {ι K V : Type}

/-! ### Chains and iterators -/

/-- The loop of `removeImpl`: the chain without the entries of a value, and how many there have
been. -/
def removeFromChain [BEq V] (value : V) : List V → List V × ℕ
  | [] => ([], 0)
  | v :: chain =>
    let (chain, n) := removeFromChain value chain
    if v == value then (chain, n + 1) else (v :: chain, n)

/-- The entry that an iterator designates. -/
def entryAt (d : Data K (List V)) (it : Iterator) : Except Fault (Node K V) :=
  match d.node (.ofBucketIndex it.bucket) with
  | none => .error .assertion
  | some n =>
    match n.value[it.e]? with
    | none => .error .assertion
    | some v => .ok ⟨n.key, v⟩

/-- The constructor of an iterator from one of the table. -/
def iterator (it : Data.Iterator K (List V)) : Except Fault Iterator :=
  if it.node.value.isEmpty then .error .assertion else .ok ⟨it.bucket, 0⟩

/-- `++i` for an iterator of the table. -/
def nextNode (d : Data K (List V)) (bucket : ℕ) : Except Fault (Option Iterator) := do
  match ← d.nextIterator d.numBuckets bucket with
  | none => pure none
  | some it => some <$> iterator it

/-- `Data::begin()`: the first bucket, or the next one in use. -/
def tableBegin {W : Type} (d : Data K W) : Except Fault (Option (Data.Iterator K W)) :=
  match d.node (.ofBucketIndex 0) with
  | none => d.nextIterator d.numBuckets 0
  | some n => .ok (some ⟨0, n⟩)

def begin (d : Data K (List V)) : Except Fault (Option Iterator) := do
  match ← tableBegin d with
  | none => pure none
  | some it => some <$> iterator it

/-- The increment of an iterator. -/
def next (d : Data K (List V)) (it : Iterator) : Except Fault (Option Iterator) :=
  match d.node (.ofBucketIndex it.bucket) with
  | none => .error .assertion
  | some n =>
    if n.value.length ≤ it.e then .error .assertion
    else if it.e + 1 < n.value.length then .ok (some ⟨it.bucket, it.e + 1⟩)
    else nextNode d it.bucket

/-! ### Objects -/

def mSize (s : Memory ι K V) (o : Option ι) : ℤ :=
  (s.handles o).own

def isEmpty (s : Memory ι K V) (o : Option ι) : Bool :=
  mSize s o = 0

/-- The table of an object that has one. -/
def table (s : Memory ι K V) (o : Option ι) : Except Fault (Data K (List V)) :=
  match s.data o with
  | none => .error .assertion
  | some d => .ok d

variable [DecidableEq ι]

/-- `m_size -= n`, and the assertion behind it. -/
def subtractSize (o : Option ι) (n : ℕ) (s : Memory ι K V) : Except Fault (Memory ι K V) :=
  if mSize s o - n < 0 then .error .assertion else .ok (s.setOwn o (mSize s o - n))

variable (globalSeed : ℕ)

def detach (o : Option ι) (s : Memory ι K V) : Except Fault (Memory ι K V) :=
  s.detach (Data.create K (List V) globalSeed 0) Data.copy o

variable [DecidableEq K] (hash : K → ℕ → ℕ)

/-! ### Observers -/

/-- `values(key)`. -/
def values (s : Memory ι K V) (o : Option ι) (key : K) : Except Fault (List V) :=
  match s.data o with
  | none => pure []
  | some d => do
    let it ← d.findBucket hash key
    match d.node it with
    | none => pure []
    | some n => pure n.value

/-- A loop from an iterator to the end, for as many turns as there are entries. -/
def entriesFrom (d : Data K (List V)) : ℕ → Option Iterator → Except Fault (List (Node K V))
  | _, none => pure []
  | 0, some _ => throw .endless
  | turns + 1, some it => do
    let entry ← entryAt d it
    let entries ← entriesFrom d turns (← next d it)
    pure (entry :: entries)

/-- What the iteration over an object yields. -/
def entries (s : Memory ι K V) (o : Option ι) : Except Fault (List (Node K V)) :=
  match s.data o with
  | none => pure []
  | some d => do entriesFrom d (mSize s o).toNat (← begin d)

/-! ### Insertion -/

/-- `emplace_helper` on the table. -/
def emplaceHelper (key : K) (value : V) (d : Data K (List V)) :
    Except Fault (Data K (List V) × Iterator) := do
  let (it, initialized, d) ← d.findOrInsert hash key
  let d ←
    if initialized then
      -- `insertMulti`
      pure (d.put it ((d.node it).map fun n => { n with value := value :: n.value }))
    else d.insert it ⟨key, [value]⟩
  pure (d, ← iterator (← d.iterator it))

/-- `emplaceReplace_helper` on the table, with whether the key was new. -/
def emplaceReplaceHelper (key : K) (value : V) (d : Data K (List V)) :
    Except Fault (Data K (List V) × Iterator × Bool) := do
  let (it, initialized, d) ← d.findOrInsert hash key
  let d ←
    if initialized then
      -- `emplaceValue`
      match d.node it with
      | some ⟨k, _ :: chain⟩ => pure (d.put it (some ⟨k, value :: chain⟩))
      | _ => throw .assertion
    else d.insert it ⟨key, [value]⟩
  pure (d, ← iterator (← d.iterator it), !initialized)

def emplace (o : Option ι) (key : K) (value : V) (s : Memory ι K V) :
    Except Fault (Memory ι K V × Node K V) := do
  let s ← detach globalSeed o s
  let (d, it) ← emplaceHelper hash key value (← table s o)
  pure ((s.write o d).setOwn o (mSize s o + 1), ← entryAt d it)

def emplaceReplace (o : Option ι) (key : K) (value : V) (s : Memory ι K V) :
    Except Fault (Memory ι K V × Node K V) := do
  let s ← detach globalSeed o s
  let (d, it, new) ← emplaceReplaceHelper hash key value (← table s o)
  pure ((s.write o d).setOwn o (if new then mSize s o + 1 else mSize s o), ← entryAt d it)

/-- `operator[]`, with the value that the reference refers to. -/
def operatorIndex [Inhabited V] (o : Option ι) (key : K) (s : Memory ι K V) :
    Except Fault (Memory ι K V × V) := do
  let s ← detach globalSeed o s
  let (it, initialized, d) ← (← table s o).findOrInsert hash key
  let d ← if initialized then pure d else d.insert it ⟨key, [default]⟩
  match d.node it with
  | some ⟨_, value :: _⟩ =>
    pure ((s.write o d).setOwn o (if initialized then mSize s o else mSize s o + 1), value)
  | _ => throw .assertion

/-! ### Removal -/

/-- `remove(key)`. -/
def remove (o : Option ι) (key : K) (s : Memory ι K V) : Except Fault (Memory ι K V × ℕ) :=
  if isEmpty s o then pure (s, 0)
  else do
    let it ← (← table s o).findBucket hash key
    let s ← detach globalSeed o s
    let d ← table s o
    let it := .ofBucketIndex it.toBucketIndex
    match d.node it with
    | none => pure (s, 0)
    | some n =>
      -- `freeChain`
      let d := d.put it (some { n with value := [] })
      let s ← subtractSize o n.value.length s
      pure (s.write o (← d.erase hash it), n.value.length)

/-- `remove(key, value)`. -/
def removeValue [BEq V] (o : Option ι) (key : K) (value : V) (s : Memory ι K V) :
    Except Fault (Memory ι K V × ℕ) :=
  if isEmpty s o then pure (s, 0)
  else do
    let it ← (← table s o).findBucket hash key
    let s ← detach globalSeed o s
    let d ← table s o
    let it := .ofBucketIndex it.toBucketIndex
    match d.node it with
    | none => pure (s, 0)
    | some n =>
      let (chain, removed) := removeFromChain value n.value
      let d := d.put it (some { n with value := chain })
      let d ← if chain.isEmpty then d.erase hash it else pure d
      let s ← subtractSize o removed (s.write o d)
      pure (s, removed)

def take [Inhabited V] (o : Option ι) (key : K) (s : Memory ι K V) :
    Except Fault (Memory ι K V × V) :=
  if isEmpty s o then pure (s, default)
  else do
    let it ← (← table s o).findBucket hash key
    let s ← detach globalSeed o s
    let d ← table s o
    let it := .ofBucketIndex it.toBucketIndex
    match d.node it with
    | none => pure (s, default)
    | some ⟨_, []⟩ => throw .assertion
    | some ⟨k, t :: chain⟩ =>
      let d ← if chain.isEmpty then d.erase hash it else pure (d.put it (some ⟨k, chain⟩))
      let s ← subtractSize o 1 (s.write o d)
      pure (s, t)

/-- The table without the entry of an iterator, and the iterator to the next entry. -/
def eraseEntry (n : Node K (List V)) (it : Iterator) (d : Data K (List V)) :
    Except Fault (Data K (List V) × Option Iterator) := do
  let chain := n.value.eraseIdx it.e
  let b := .ofBucketIndex it.bucket
  let d := d.put b (some { n with value := chain })
  if it.e < chain.length then pure (d, some it)
  else if it.e = 0 then
    -- The last remaining entry of the node.
    let d ← d.erase hash b
    if it.bucket = d.numBuckets - 1 ∨ d.isUnused b then pure (d, ← nextNode d it.bucket)
    else pure (d, some (← iterator (← d.iterator b)))
  else pure (d, ← nextNode d it.bucket)

/-- Erases the entry that an iterator designates, and returns it with the next one. -/
def erase (o : Option ι) (it : Iterator) (s : Memory ι K V) :
    Except Fault (Memory ι K V × Node K V × Option (Node K V)) :=
  match (s.data o).bind fun d => (entryAt d it).toOption with
  | none => throw .badIterator
  | some entry => do
    let s ← detach globalSeed o s
    let d ← table s o
    match d.node (.ofBucketIndex it.bucket) with
    | none => throw .assertion
    | some n =>
      let (d, i) ← eraseEntry hash n it d
      let s ← subtractSize o 1 (s.write o d)
      let next ← i.mapM (entryAt d)
      pure (s, entry, next)

/-! ### Union -/

/-- The loop of `unite`, for as many turns as the copy has entries. -/
def uniteLoop (o : Option ι) : ℕ → Option Iterator → Memory ι K V → Except Fault (Memory ι K V)
  | _, none, s => pure s
  | 0, some _, _ => throw .endless
  | turns + 1, some cit, s => do
    let entry ← entryAt (← table s none) cit
    let (s, _) ← emplace globalSeed hash o entry.key entry.value s
    uniteLoop o turns (← next (← table s none) cit) s

/-- `unite`. -/
def unite (x y : ι) (s : Memory ι K V) : Except Fault (Memory ι K V) :=
  if isEmpty s (some x) then pure (s.assign (some x) (some y))
  else if isEmpty s (some y) then pure s
  else do
    let s := s.assign none (some y)
    let s ← detach globalSeed (some x) s
    let cit ← begin (← table s none)
    let s ← uniteLoop globalSeed hash (some x) (mSize s none).toNat cit s
    pure (s.clear none 0)

/-- The loop of `unite` with a `QHash`, for as many turns as that has entries. -/
def uniteHashLoop (o : Option ι) (other : Data K V) :
    ℕ → Option (Data.Iterator K V) → Memory ι K V → Except Fault (Memory ι K V)
  | _, none, s => pure s
  | 0, some _, _ => throw .endless
  | turns + 1, some cit, s => do
    let (s, _) ← emplace globalSeed hash o cit.node.key cit.node.value s
    uniteHashLoop o other turns (← other.nextIterator other.numBuckets cit.bucket) s

/-- `unite` with a `QHash`. -/
def uniteHash (o : Option ι) (other : QHash K V) (s : Memory ι K V) :
    Except Fault (Memory ι K V) :=
  match other.d with
  | none => pure s
  | some d => do uniteHashLoop globalSeed hash o d d.size (← tableBegin d) s

/-! ### Runs -/

/-- A `QHash` with the finite map that it represents. -/
structure HashOf (hash : K → ℕ → ℕ) (V : Type) where
  q : QHash K V
  map : K → Option V
  represents : q.Represents hash map

/-- What is done to the objects.  `assign` makes a copy. -/
inductive Op (ι V : Type) (hash : K → ℕ → ℕ) where
  | assign (x y : ι)
  | clear (x : ι)
  | insert (x : ι) (key : K) (value : V)
  | replace (x : ι) (key : K) (value : V)
  | operatorIndex (x : ι) (key : K)
  | remove (x : ι) (key : K)
  | removeValue (x : ι) (key : K) (value : V)
  | take (x : ι) (key : K)
  | erase (x : ι) (it : Iterator)
  | unite (x y : ι)
  | uniteHash (x : ι) (other : HashOf hash V)

/-- What an operation returns; an iterator is shown by the entry that it designates. -/
inductive Result (K V : Type) where
  | done
  | entry (entry : Node K V)
  | value (value : V)
  | count (n : ℕ)
  | erased (entry : Node K V) (next : Option (Node K V))

variable {hash}

def step [Inhabited V] [BEq V] (s : Memory ι K V) :
    Op ι V hash → Except Fault (Memory ι K V × Result K V)
  | .assign x y => pure (s.assign (some x) (some y), .done)
  | .clear x => pure (s.clear (some x) 0, .done)
  | .insert x key value => do
    let (s, entry) ← emplace globalSeed hash (some x) key value s
    pure (s, .entry entry)
  | .replace x key value => do
    let (s, entry) ← emplaceReplace globalSeed hash (some x) key value s
    pure (s, .entry entry)
  | .operatorIndex x key => do
    let (s, value) ← operatorIndex globalSeed hash (some x) key s
    pure (s, .value value)
  | .remove x key => do
    let (s, n) ← remove globalSeed hash (some x) key s
    pure (s, .count n)
  | .removeValue x key value => do
    let (s, n) ← removeValue globalSeed hash (some x) key value s
    pure (s, .count n)
  | .take x key => do
    let (s, value) ← take globalSeed hash (some x) key s
    pure (s, .value value)
  | .erase x it => do
    let (s, entry, next) ← erase globalSeed hash (some x) it s
    pure (s, .erased entry next)
  | .unite x y => do pure (← unite globalSeed hash x y s, .done)
  | .uniteHash x other => do pure (← uniteHash globalSeed hash (some x) other.q s, .done)

/-- A run, with what the operations return. -/
def run [Inhabited V] [BEq V] (s : Memory ι K V) :
    List (Op ι V hash) → Except Fault (Memory ι K V × List (Result K V))
  | [] => pure (s, [])
  | op :: ops => do
    let (s, result) ← step globalSeed s op
    let (s, results) ← run s ops
    pure (s, result :: results)

/-- The objects before they have been used. -/
def initial (ι K V : Type) : Memory ι K V where
  heap _ := none
  top := 0
  handles _ := ⟨none, 0⟩

end QMultiHash
