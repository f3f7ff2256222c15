import BobUI.Corelib.Tools.Hash
import Mathlib.Logic.Function.Basic

/-!
# The storage of a span

The offsets and the entries of `Span` in `qhash.h`.  A bucket that is used holds the offset of its
entry; the entries that are not used are linked by their first octets.
-/

namespace QHashPrivate

open SpanConstants

/-- `SpanConstants::UnusedEntry`. -/
def SpanConstants.unusedEntry : UInt8 := 0xff

/-- `Span::Entry`: its storage holds a link or a node. -/
inductive Entry (N : Type) where
  | free (nextFree : UInt8)
  | used (node : N)

namespace Entry

variable {N : Type}

/-- `Entry::nextFree`, which must not be read of a node. -/
def nextFree? : Entry N → Option UInt8
  | free nextFree => some nextFree
  | used _ => none

/-- `Entry::node`, which must not be read of a link. -/
def node? : Entry N → Option N
  | free _ => none
  | used node => some node

end Entry

/-- `Span`, with the storage that it allocates; `entries` has `allocated` elements. -/
structure SpanStorage (N : Type) where
  offsets : Fin nEntries → UInt8
  entries : List (Entry N)
  allocated : UInt8
  nextFree : UInt8

namespace SpanStorage

variable {N ι : Type} [DecidableEq ι]

/-- A new span. -/
def new (N : Type) : SpanStorage N where
  offsets := fun _ => unusedEntry
  entries := []
  allocated := 0
  nextFree := 0

/-- `Span::addStorage`; `none` is an assertion that fails, or an entry that is moved as a node and
holds none. -/
def addStorage (s : SpanStorage N) : Option (SpanStorage N) :=
  if s.allocated.toNat < nEntries ∧ s.nextFree = s.allocated then do
    let alloc :=
      if s.allocated.toNat = 0 then nEntries / 8 * 3
      else if s.allocated.toNat = nEntries / 8 * 3 then nEntries / 8 * 5
      else s.allocated.toNat + nEntries / 8
    let nodes ← (s.entries.take s.allocated.toNat).mapM Entry.node?
    let unused := List.range' s.allocated.toNat (alloc - s.allocated.toNat)
    some { s with
      entries := nodes.map .used ++ unused.map fun i => .free (UInt8.ofNat (i + 1))
      allocated := UInt8.ofNat alloc }
  else none

/-- Storage is added if no entry is free. -/
def withRoom (s : SpanStorage N) : Option (SpanStorage N) :=
  if s.nextFree = s.allocated then s.addStorage else some s

/-- What `insert` and `moveFromSpan` begin with: the first free entry becomes that of a bucket.
Yields the entry, too. -/
def takeEntry (s : SpanStorage N) (i : Fin nEntries) : Option (SpanStorage N × UInt8) := do
  let s ← s.withRoom
  if s.nextFree < s.allocated then
    let entry ← s.entries[s.nextFree.toNat]?
    let next ← entry.nextFree?
    some ({ s with nextFree := next, offsets := Function.update s.offsets i s.nextFree },
      s.nextFree)
  else none

/-- A node is stored in an entry. -/
def store (s : SpanStorage N) (entry : UInt8) (node : N) : SpanStorage N :=
  { s with entries := s.entries.set entry.toNat (.used node) }

/-- `Span::insert`, with the node that the caller creates in the storage. -/
def insert (s : SpanStorage N) (i : Fin nEntries) (node : N) : Option (SpanStorage N) :=
  if s.offsets i = unusedEntry then do
    let (s, entry) ← s.takeEntry i
    some (s.store entry node)
  else none

/-- An entry joins the free ones. -/
def release (s : SpanStorage N) (bucket : Fin nEntries) (entry : UInt8) : SpanStorage N :=
  { s with
    offsets := Function.update s.offsets bucket unusedEntry
    entries := s.entries.set entry.toNat (.free s.nextFree)
    nextFree := entry }

/-- The node of a bucket. -/
def node? (s : SpanStorage N) (bucket : Fin nEntries) : Option N :=
  s.entries[(s.offsets bucket).toNat]?.bind Entry.node?

/-- `Span::erase`, which destroys the node. -/
def erase (s : SpanStorage N) (bucket : Fin nEntries) : Option (SpanStorage N) :=
  if s.offsets bucket ≠ unusedEntry then do
    let _ ← s.node? bucket
    some (s.release bucket (s.offsets bucket))
  else none

/-- `Span::moveLocal`. -/
def moveLocal (s : SpanStorage N) (source toIndex : Fin nEntries) : Option (SpanStorage N) :=
  if s.offsets source ≠ unusedEntry ∧ s.offsets toIndex = unusedEntry then
    some { s with
      offsets := Function.update (Function.update s.offsets toIndex (s.offsets source)) source
        unusedEntry }
  else none

/-- `Span::moveFromSpan` of the span `target`; the other one is read behind what was done to this
one. -/
def moveFromSpan (spans : ι → SpanStorage N) (target fromSpan : ι)
    (fromIndex toIndex : Fin nEntries) : Option (ι → SpanStorage N) :=
  if (spans target).offsets toIndex = unusedEntry
      ∧ (spans fromSpan).offsets fromIndex ≠ unusedEntry then do
    let (s, toEntry) ← (spans target).takeEntry toIndex
    let spans := Function.update spans target s
    let fromOffset := (spans fromSpan).offsets fromIndex
    let node ← (spans fromSpan).node? fromIndex
    let spans := Function.update spans target (s.store toEntry node)
    some (Function.update spans fromSpan ((spans fromSpan).release fromIndex fromOffset))
  else none

/-! ### Sequences of operations -/

/-- The operations on the spans of a table. -/
inductive Operation (N ι : Type) where
  | insert (span : ι) (i : Fin nEntries) (node : N)
  | erase (span : ι) (bucket : Fin nEntries)
  | moveLocal (span : ι) (source toIndex : Fin nEntries)
  | moveFromSpan (target fromSpan : ι) (fromIndex toIndex : Fin nEntries)

/-- An operation on one of the spans. -/
def onSpan (spans : ι → SpanStorage N) (span : ι)
    (operation : SpanStorage N → Option (SpanStorage N)) : Option (ι → SpanStorage N) :=
  (operation (spans span)).map (Function.update spans span)

def apply (spans : ι → SpanStorage N) : Operation N ι → Option (ι → SpanStorage N)
  | .insert span i node => onSpan spans span (·.insert i node)
  | .erase span bucket => onSpan spans span (·.erase bucket)
  | .moveLocal span source toIndex => onSpan spans span (·.moveLocal source toIndex)
  | .moveFromSpan target fromSpan fromIndex toIndex =>
    moveFromSpan spans target fromSpan fromIndex toIndex

/-- The preconditions: buckets that are written are unused, and buckets that are read are used. -/
def Allowed (spans : ι → SpanStorage N) : Operation N ι → Prop
  | .insert span i _ => (spans span).offsets i = unusedEntry
  | .erase span bucket => (spans span).offsets bucket ≠ unusedEntry
  | .moveLocal span source toIndex =>
    (spans span).offsets source ≠ unusedEntry ∧ (spans span).offsets toIndex = unusedEntry
  | .moveFromSpan target fromSpan fromIndex toIndex =>
    (spans target).offsets toIndex = unusedEntry ∧ (spans fromSpan).offsets fromIndex ≠ unusedEntry

/-- `none` if one of the operations fails. -/
def run (spans : ι → SpanStorage N) : List (Operation N ι) → Option (ι → SpanStorage N)
  | [] => some spans
  | operation :: operations => (apply spans operation).bind fun spans => run spans operations

/-- Each operation respects the preconditions in the state that it meets. -/
def AllAllowed (spans : ι → SpanStorage N) : List (Operation N ι) → Prop
  | [] => True
  | operation :: operations =>
    Allowed spans operation ∧ ∀ next, apply spans operation = some next → AllAllowed next operations

end SpanStorage

end QHashPrivate
