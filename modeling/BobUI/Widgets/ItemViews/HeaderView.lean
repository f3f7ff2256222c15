import Mathlib.Data.List.AList

/-!
# The sections of a header

The stores of a header view in flexible mode, where no section is stretched or resized by the
header itself and no layout is pending: the sizes, modes and flags of the sections by visual
index, the sizes of the hidden sections by logical index, and the two lists of indexes, which
are empty as long as no section has been moved.

The lengths and start positions that are computed from the sizes are left out, and so are
painting and signals.
-/

/-- What must not happen: an index out of range, or an assertion that fails. -/
inductive QHeaderViewFault where
  | index
  | assertion
  deriving DecidableEq, Repr

/-- The modes of sections that the header does not resize. -/
inductive ResizeMode where
  | Interactive
  | Fixed
  deriving DecidableEq, Repr

/-- A section, of which `tmpLogIdx` is kept apart. -/
structure SectionItem where
  size : BitVec 20
  isHidden : Bool
  resizeMode : ResizeMode
  deriving DecidableEq, Repr

/-- A `QHash<int, int>` from logical indexes to sizes. -/
abbrev SectionSizes : Type := AList fun _ : ℕ => ℤ

structure QHeaderView where
  visualIndices : List ℕ
  logicalIndices : List ℕ
  hiddenSectionSize : SectionSizes
  sectionItems : List SectionItem
  sortIndicatorSection : ℤ
  defaultSectionSize : ℤ
  globalResizeMode : ResizeMode
  minimumSectionSize : ℤ
  maximumSectionSize : ℤ
  /-- `state == NoClear`. -/
  noClear : Bool

namespace QHeaderView

/-- `QList::at`. -/
def fetch {α : Type} (l : List α) (i : ℕ) : Except QHeaderViewFault α :=
  match l[i]? with
  | some a => .ok a
  | none => .error .index

/-- `QList::operator[]` on the left of an assignment. -/
def store {α : Type} (l : List α) (i : ℕ) (a : α) : Except QHeaderViewFault (List α) :=
  if i < l.length then .ok (l.set i a) else .error .index

/-! ### The sections by visual index -/

def sectionCount (d : QHeaderView) : ℕ :=
  d.sectionItems.length

def isVisualIndexHidden (d : QHeaderView) (visual : ℕ) : Except QHeaderViewFault Bool := do
  let item ← fetch d.sectionItems visual
  pure item.isHidden

def setVisualIndexHidden (visual : ℕ) (hidden : Bool) (d : QHeaderView) :
    Except QHeaderViewFault QHeaderView := do
  let item ← fetch d.sectionItems visual
  let items ← store d.sectionItems visual { item with isHidden := hidden }
  pure { d with sectionItems := items }

def headerSectionSize (d : QHeaderView) (visual : ℕ) : ℤ :=
  match d.sectionItems[visual]? with
  | some item => item.size.toNat
  | none => -1

def headerSectionResizeMode (d : QHeaderView) (visual : ℕ) : ResizeMode :=
  match d.sectionItems[visual]? with
  | some item => item.resizeMode
  | none => d.globalResizeMode

def createSectionItems (start stop : ℕ) (sizePerSection : ℤ) (mode : ResizeMode)
    (d : QHeaderView) : QHeaderView :=
  let items := d.sectionItems
    ++ List.replicate (stop + 1 - d.sectionItems.length) ⟨0, false, .Interactive⟩
  { d with
    sectionItems := items.mapIdx fun i item =>
      if start ≤ i ∧ i ≤ stop then
        { item with size := BitVec.ofInt 20 sizePerSection, resizeMode := mode }
      else item }

def removeSectionsFromSectionItems (start stop : ℕ) (d : QHeaderView) :
    Except QHeaderViewFault QHeaderView :=
  if d.sectionItems.length ≤ stop then .error .index
  else .ok { d with
    sectionItems := d.sectionItems.take start ++ d.sectionItems.drop (stop + 1) }

/-! ### The mapping -/

def logicalIndex (d : QHeaderView) (visual : ℕ) : Except QHeaderViewFault ℕ :=
  if d.logicalIndices.isEmpty then .ok visual else fetch d.logicalIndices visual

/-- The public function: nothing in place of `-1`. -/
def visualIndex (d : QHeaderView) (logical : ℤ) : Except QHeaderViewFault (Option ℕ) :=
  if logical < 0 ∨ d.sectionCount ≤ logical then .ok none
  else if d.visualIndices.isEmpty then .ok (some logical.toNat)
  else if logical < d.visualIndices.length then do
    let visual ← fetch d.visualIndices logical.toNat
    if d.sectionCount ≤ visual then throw .assertion
    pure (some visual)
  else .ok none

def initializeIndexMapping (d : QHeaderView) : QHeaderView :=
  if d.visualIndices.length ≠ d.sectionCount ∨ d.logicalIndices.length ≠ d.sectionCount then
    { d with
      visualIndices := List.range d.sectionCount, logicalIndices := List.range d.sectionCount }
  else d

/-! ### Moving -/

/-- `qMoveRange`, which rotates a part of a container. -/
def qMoveRange {α : Type} (c : List α) (rangeStart rangeEnd targetPosition : ℕ) :
    Except QHeaderViewFault (List α) :=
  if c.length < targetPosition
      ∨ rangeStart ≤ targetPosition ∧ targetPosition < rangeEnd then .error .assertion
  else
    let forwardMove := rangeStart < targetPosition
    let first := min rangeStart targetPosition
    let mid := if forwardMove then rangeEnd else rangeStart
    let last := if forwardMove then targetPosition + 1 else rangeEnd
    if c.length < last then .error .index
    else
      let part := (c.take last).drop first
      .ok (c.take first ++ (part.drop (mid - first) ++ part.take (mid - first)) ++ c.drop last)

/-- The loops of `moveSection`: the sections from the next position on are shifted, for as many
turns. -/
def shiftSections (next : ℕ → ℕ) :
    ℕ → ℕ → List ℕ × List ℕ → Except QHeaderViewFault (List ℕ × List ℕ)
  | 0, _, indices => .ok indices
  | turns + 1, visual, (visualIndices, logicalIndices) => do
    let logical ← fetch logicalIndices (next visual)
    let visualIndices ← store visualIndices logical visual
    let logicalIndices ← store logicalIndices visual logical
    shiftSections next turns (next visual) (visualIndices, logicalIndices)

def moveSection (source target : ℤ) (d : QHeaderView) : Except QHeaderViewFault QHeaderView :=
  if source < 0 ∨ d.sectionCount ≤ source ∨ target < 0 ∨ d.sectionCount ≤ target then .ok d
  else if source = target then .ok d
  else do
    let d := d.initializeIndexMapping
    let logical ← fetch d.logicalIndices source.toNat
    let (visualIndices, logicalIndices) ←
      if source < target then
        shiftSections (· + 1) (target - source).toNat source.toNat
          (d.visualIndices, d.logicalIndices)
      else
        shiftSections (· - 1) (source - target).toNat source.toNat
          (d.visualIndices, d.logicalIndices)
    let visualIndices ← store visualIndices logical target.toNat
    let logicalIndices ← store logicalIndices target.toNat logical
    let items ← qMoveRange d.sectionItems source.toNat (source.toNat + 1) target.toNat
    pure { d with
      visualIndices := visualIndices, logicalIndices := logicalIndices, sectionItems := items }

def swapSections (first second : ℤ) (d : QHeaderView) : Except QHeaderViewFault QHeaderView :=
  if first = second then .ok d
  else if first < 0 ∨ d.sectionCount ≤ first ∨ second < 0 ∨ d.sectionCount ≤ second then .ok d
  else do
    let first := first.toNat
    let second := second.toNat
    let firstSize := d.headerSectionSize first
    let firstMode := d.headerSectionResizeMode first
    let firstLogical ← d.logicalIndex first
    let secondSize := d.headerSectionSize second
    let secondMode := d.headerSectionResizeMode second
    let secondLogical ← d.logicalIndex second
    let d := d.createSectionItems second second firstSize firstMode
    let d := d.createSectionItems first first secondSize secondMode
    let d := d.initializeIndexMapping
    let visualIndices ← store d.visualIndices firstLogical second
    let logicalIndices ← store d.logicalIndices second firstLogical
    let visualIndices ← store visualIndices secondLogical first
    let logicalIndices ← store logicalIndices first secondLogical
    let d := { d with visualIndices := visualIndices, logicalIndices := logicalIndices }
    if d.hiddenSectionSize.entries.isEmpty then pure d
    else do
      let firstHidden ← d.isVisualIndexHidden first
      let secondHidden ← d.isVisualIndexHidden second
      let d ← d.setVisualIndexHidden first secondHidden
      d.setVisualIndexHidden second firstHidden

/-! ### Sizes and hiding -/

def maxSizeSection : ℤ := 1048575

def qBound (low val high : ℤ) : ℤ :=
  max low (min high val)

def isSectionHidden (d : QHeaderView) (logical : ℤ) : Except QHeaderViewFault Bool :=
  if d.hiddenSectionSize.entries.isEmpty ∨ logical < 0 ∨ d.sectionCount ≤ logical then .ok false
  else do
    match ← d.visualIndex logical with
    | none => throw .assertion
    | some visual => d.isVisualIndexHidden visual

def resizeSection (logical size : ℤ) (d : QHeaderView) : Except QHeaderViewFault QHeaderView :=
  if logical < 0 ∨ d.sectionCount ≤ logical ∨ size < 0 ∨ maxSizeSection < size then .ok d
  else do
    let size := if 0 < size then qBound d.minimumSectionSize size d.maximumSectionSize else size
    if ← d.isSectionHidden logical then
      pure { d with hiddenSectionSize := d.hiddenSectionSize.insert logical.toNat size }
    else
      match ← d.visualIndex logical with
      | none => pure d
      | some visual =>
        if d.headerSectionSize visual = size then pure d
        else pure (d.createSectionItems visual visual size (d.headerSectionResizeMode visual))

def setSectionHidden (logical : ℤ) (hide : Bool) (d : QHeaderView) :
    Except QHeaderViewFault QHeaderView :=
  if logical < 0 ∨ d.sectionCount ≤ logical then .ok d
  else do
    match ← d.visualIndex logical with
    | none => throw .assertion
    | some visual =>
      let hidden ← d.isVisualIndexHidden visual
      if hide = hidden then pure d
      else if hide then
        let size := d.headerSectionSize visual
        let d ← d.resizeSection logical 0
        let d := { d with hiddenSectionSize := d.hiddenSectionSize.insert logical.toNat size }
        d.setVisualIndexHidden visual true
      else
        let size := (d.hiddenSectionSize.lookup logical.toNat).getD d.defaultSectionSize
        let d := { d with hiddenSectionSize := d.hiddenSectionSize.erase logical.toNat }
        let d ← d.setVisualIndexHidden visual false
        d.resizeSection logical size

/-! ### Insertion -/

/-- `QList::insert` of a section index at its own position, for each of the new ones. -/
def insertIndices (logicalFirst : ℕ) : ℕ → List ℕ → Except QHeaderViewFault (List ℕ)
  | 0, indices => .ok indices
  | turns + 1, indices =>
    if indices.length < logicalFirst then .error .index
    else insertIndices (logicalFirst + 1) turns
      (indices.take logicalFirst ++ logicalFirst :: indices.drop logicalFirst)

def shiftIndex (logicalFirst insertCount i : ℕ) : ℕ :=
  if logicalFirst ≤ i then i + insertCount else i

/-- The lists of indexes with the new ones, where there are any. -/
def insertMapping (logicalFirst insertCount : ℕ) (d : QHeaderView) :
    Except QHeaderViewFault (List ℕ × List ℕ) :=
  if !d.visualIndices.isEmpty ∧ !d.logicalIndices.isEmpty then do
    let visualIndices ← insertIndices logicalFirst insertCount
      (d.visualIndices.map (shiftIndex logicalFirst insertCount))
    let logicalIndices ← insertIndices logicalFirst insertCount
      (d.logicalIndices.map (shiftIndex logicalFirst insertCount))
    pure (visualIndices, logicalIndices)
  else .ok (d.visualIndices, d.logicalIndices)

def sectionsInserted (isRoot : Bool) (modelSectionCount logicalFirst logicalLast : ℕ)
    (d : QHeaderView) : Except QHeaderViewFault QHeaderView :=
  if !isRoot ∨ modelSectionCount = d.sectionCount then .ok d
  else do
    let insertCount := logicalLast + 1 - logicalFirst
    let sortIndicatorSection :=
      if logicalFirst ≤ d.sortIndicatorSection then d.sortIndicatorSection + insertCount
      else d.sortIndicatorSection
    let sections := List.replicate insertCount
      ⟨BitVec.ofInt 20 d.defaultSectionSize, false, d.globalResizeMode⟩
    let items :=
      if d.sectionItems.isEmpty ∨ d.sectionItems.length ≤ logicalFirst then
        d.sectionItems ++ sections
      else d.sectionItems.take logicalFirst ++ (sections ++ d.sectionItems.drop logicalFirst)
    let (visualIndices, logicalIndices) ← d.insertMapping logicalFirst insertCount
    let newHiddenSectionSize := d.hiddenSectionSize.entries.foldl
      (fun sizes entry => sizes.insert (shiftIndex logicalFirst insertCount entry.1) entry.2) ∅
    pure { d with
      sortIndicatorSection := sortIndicatorSection,
      sectionItems := items,
      visualIndices := visualIndices,
      logicalIndices := logicalIndices,
      hiddenSectionSize := newHiddenSectionSize }

/-! ### Removal -/

/-- `QHash::operator[]`, which inserts a size that is missing. -/
def subscript (sizes : SectionSizes) (i : ℕ) : ℤ × SectionSizes :=
  match sizes.lookup i with
  | some size => (size, sizes)
  | none => (0, sizes.insert i 0)

/-- The loops of `updateHiddenSections`, from an index on for as many turns: the sizes of the
hidden sections go to the new hash under lower indexes. -/
def keepHidden (changeCount : ℕ) :
    ℕ → ℕ → QHeaderView × SectionSizes → Except QHeaderViewFault (QHeaderView × SectionSizes)
  | 0, _, sizes => .ok sizes
  | turns + 1, i, (d, sizes) => do
    if ← d.isSectionHidden i then
      let (size, hiddenSectionSize) := subscript d.hiddenSectionSize i
      let d := { d with hiddenSectionSize := hiddenSectionSize }
      keepHidden changeCount turns (i + 1) (d, sizes.insert (i - changeCount) size)
    else keepHidden changeCount turns (i + 1) (d, sizes)

def updateHiddenSections (logicalFirst logicalLast : ℕ) (d : QHeaderView) :
    Except QHeaderViewFault QHeaderView := do
  let changeCount := logicalLast + 1 - logicalFirst
  let (d, sizes) ← keepHidden 0 logicalFirst 0 (d, ∅)
  let (d, sizes) ← keepHidden changeCount (d.sectionCount - (logicalLast + 1)) (logicalLast + 1)
    (d, sizes)
  pure { d with hiddenSectionSize := sizes }

/-- The loop for the removal of one section, from a visual index on for as many turns. -/
def removeIndex (logical visual : ℕ) :
    ℕ → ℕ → List ℕ × List ℕ → Except QHeaderViewFault (List ℕ × List ℕ)
  | 0, _, indices => .ok indices
  | turns + 1, v, (visualIndices, logicalIndices) => do
    let other ← fetch logicalIndices v
    let visualIndices ←
      if visual < v then do
        let i ← fetch visualIndices other
        store visualIndices other (i - 1)
      else pure visualIndices
    let logicalIndices ←
      if logical < other then store logicalIndices v (other - 1) else pure logicalIndices
    removeIndex logical visual turns (v + 1) (visualIndices, logicalIndices)

/-- The sections from a visual index on, with their logical indexes in `tmpLogIdx`. -/
def markSections (logicalIndices : List ℕ) :
    ℕ → List SectionItem → Except QHeaderViewFault (List (ℕ × SectionItem))
  | _, [] => .ok []
  | u, item :: items => do
    let logical ← fetch logicalIndices u
    let marked ← markSections logicalIndices (u + 1) items
    pure ((logical, item) :: marked)

/-- The loop that removes the sections of a range of logical indexes, from below a visual
index down. -/
def removeMarked (logicalFirst logicalLast : ℕ) :
    ℕ → List (ℕ × SectionItem) → Except QHeaderViewFault (List (ℕ × SectionItem))
  | 0, items => .ok items
  | v + 1, items => do
    let (tmpLogIdx, _) ← fetch items v
    removeMarked logicalFirst logicalLast v
      (if logicalFirst ≤ tmpLogIdx ∧ tmpLogIdx ≤ logicalLast then items.eraseIdx v else items)

/-- The loop that restores the indexes from the sections, from a visual index on for as many
turns. -/
def restoreIndices (logicalFirst changeCount : ℕ) (items : List (ℕ × SectionItem)) :
    ℕ → ℕ → List ℕ × List ℕ → Except QHeaderViewFault (List ℕ × List ℕ)
  | 0, _, indices => .ok indices
  | turns + 1, w, (visualIndices, logicalIndices) => do
    let (tmpLogIdx, _) ← fetch items w
    let logindex := if logicalFirst < tmpLogIdx then tmpLogIdx - changeCount else tmpLogIdx
    let visualIndices ← store visualIndices logindex w
    let logicalIndices ← store logicalIndices w logindex
    restoreIndices logicalFirst changeCount items turns (w + 1) (visualIndices, logicalIndices)

/-- `QList::resize`. -/
def resize (l : List ℕ) (n : ℕ) : List ℕ :=
  l.take n ++ List.replicate (n - l.length) 0

def clear (d : QHeaderView) : QHeaderView :=
  if d.noClear then d
  else { d with
    visualIndices := [], logicalIndices := [], hiddenSectionSize := ∅, sectionItems := [] }

/-- The indexes and the sections without those of a range of logical indexes. -/
def removeSections (logicalFirst logicalLast : ℕ) (d : QHeaderView) :
    Except QHeaderViewFault QHeaderView :=
  if d.visualIndices.isEmpty ∧ d.logicalIndices.isEmpty then
    d.removeSectionsFromSectionItems logicalFirst logicalLast
  else if logicalFirst = logicalLast then do
    let visual ← fetch d.visualIndices logicalFirst
    if d.sectionCount ≠ d.logicalIndices.length then throw .assertion
    let (visualIndices, logicalIndices) ← removeIndex logicalFirst visual d.sectionCount 0
      (d.visualIndices, d.logicalIndices)
    { d with
      visualIndices := visualIndices.eraseIdx logicalFirst,
      logicalIndices := logicalIndices.eraseIdx visual
    }.removeSectionsFromSectionItems visual visual
  else do
    let items ← markSections d.logicalIndices 0 d.sectionItems
    let items ← removeMarked logicalFirst logicalLast items.length items
    let n := items.length
    let (visualIndices, logicalIndices) ←
      restoreIndices logicalFirst (logicalLast + 1 - logicalFirst) items n 0
        (resize d.visualIndices n, resize d.logicalIndices n)
    pure { d with
      visualIndices := visualIndices,
      logicalIndices := logicalIndices,
      sectionItems := items.map Prod.snd }

def sectionsRemoved (isRoot : Bool) (logicalFirst logicalLast : ℤ) (d : QHeaderView) :
    Except QHeaderViewFault QHeaderView :=
  if !isRoot then .ok d
  else if min logicalFirst logicalLast < 0 ∨ d.sectionCount ≤ max logicalLast logicalFirst then
    .ok d
  else do
    let sortIndicatorSection :=
      if logicalFirst ≤ d.sortIndicatorSection then
        if d.sortIndicatorSection ≤ logicalLast then -1
        else d.sortIndicatorSection - (logicalLast - logicalFirst + 1)
      else d.sortIndicatorSection
    let d := { d with sortIndicatorSection := sortIndicatorSection }
    let d ← d.updateHiddenSections logicalFirst.toNat logicalLast.toNat
    let d ← d.removeSections logicalFirst.toNat logicalLast.toNat
    pure (if d.sectionCount = 0 then d.clear else d)

/-! ### Runs -/

inductive Action where
  | moveSection (source target : ℤ)
  | swapSections (first second : ℤ)
  | setSectionHidden (logical : ℤ) (hide : Bool)
  | resizeSection (logical size : ℤ)
  | sectionsInserted (isRoot : Bool) (modelSectionCount logicalFirst logicalLast : ℕ)
  | sectionsRemoved (isRoot : Bool) (logicalFirst logicalLast : ℤ)

/-- An action on the header.  The model announces ranges from a first to a last section, new ones
no later than at the end: it announces no others. -/
def step (d : QHeaderView) : Action → Except QHeaderViewFault QHeaderView
  | .moveSection source target => d.moveSection source target
  | .swapSections first second => d.swapSections first second
  | .setSectionHidden logical hide => d.setSectionHidden logical hide
  | .resizeSection logical size => d.resizeSection logical size
  | .sectionsInserted isRoot modelSectionCount logicalFirst logicalLast =>
    if logicalFirst ≤ logicalLast ∧ logicalFirst ≤ d.sectionCount then
      d.sectionsInserted isRoot modelSectionCount logicalFirst logicalLast
    else .ok d
  | .sectionsRemoved isRoot logicalFirst logicalLast =>
    if logicalFirst ≤ logicalLast then d.sectionsRemoved isRoot logicalFirst logicalLast
    else .ok d

def run (d : QHeaderView) (actions : List Action) : Except QHeaderViewFault QHeaderView :=
  actions.foldlM step d

/-- A header with sections of some sizes and modes, none of which has been moved or hidden. -/
def flexible (sections : List (BitVec 20 × ResizeMode))
    (sortIndicatorSection defaultSectionSize : ℤ) (globalResizeMode : ResizeMode)
    (minimumSectionSize maximumSectionSize : ℤ) (noClear : Bool) : QHeaderView where
  visualIndices := []
  logicalIndices := []
  hiddenSectionSize := ∅
  sectionItems := sections.map fun s => ⟨s.1, false, s.2⟩
  sortIndicatorSection := sortIndicatorSection
  defaultSectionSize := defaultSectionSize
  globalResizeMode := globalResizeMode
  minimumSectionSize := minimumSectionSize
  maximumSectionSize := maximumSectionSize
  noClear := noClear

end QHeaderView
