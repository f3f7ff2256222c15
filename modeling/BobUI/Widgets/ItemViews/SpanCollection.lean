import BobUI.Library.OrderedMap
import Mathlib.Algebra.Order.Group.Int

/-!
# The spans of a table view

`QSpanCollection` of `qtableview.cpp`.  The spans are objects behind pointers; the index has an
entry for each row where a span starts, with the spans that cross that row by the columns where
they start.  The keys of the index are the negated rows and columns, so that `lowerBound` finds
the last row or column up to a given one.

A loop goes through the keys that the map has when the loop starts, and reads the values that the
map has when it comes to them.
-/

/-- A pointer to a span. -/
abbrev SpanId : Type := ℕ

namespace QSpanCollection

structure Span where
  top : ℤ
  left : ℤ
  bottom : ℤ
  right : ℤ
  willBeDeleted : Bool
deriving DecidableEq, Repr

namespace Span

def new (row column rowCount columnCount : ℤ) : Span where
  top := row
  left := column
  bottom := row + rowCount - 1
  right := column + columnCount - 1
  willBeDeleted := false

def height (s : Span) : ℤ :=
  s.bottom - s.top + 1

def width (s : Span) : ℤ :=
  s.right - s.left + 1

end Span

/-- `QMap<int, Span *>`. -/
abbrev SubIndex : Type := OrderedMap ℤ SpanId

/-- `QMap<int, SubIndex>`. -/
abbrev Index : Type := OrderedMap ℤ SubIndex

end QSpanCollection

open QSpanCollection in
/-- The spans, in the order in which they were added, and the index.  `objects` has every span that
was allocated. -/
structure QSpanCollection where
  objects : List Span
  spans : List SpanId
  index : Index

namespace QSpanCollection

def new : QSpanCollection where
  objects := []
  spans := []
  index := .empty

/-- `Span()`. -/
def Span.default : Span where
  top := -1
  left := -1
  bottom := -1
  right := -1
  willBeDeleted := false

/-- The object that a pointer points to. -/
def heap (c : QSpanCollection) (span : SpanId) : Span :=
  c.objects.getD span .default

/-! ### Adding a span -/

variable (heap : SpanId → Span)

/-- The spans of a row that go on to `top`. -/
def splitSubIndex (top : ℤ) (previousList : SubIndex) : SubIndex :=
  previousList.entries.foldl
    (fun subIndex e =>
      if top ≤ (heap e.2).bottom then subIndex.insert (-(heap e.2).left) e.2 else subIndex)
    .empty

/-- The span is inserted in the rows of the keys as far as it goes. -/
def insertSpan (span : SpanId) : List ℤ → Index → Index
  | [], index => index
  | k :: keys, index =>
    if -k ≤ (heap span).bottom then
      insertSpan span keys (index.modify k (·.insert (-(heap span).left) span))
    else index

def addSpan (c : QSpanCollection) (span : SpanId) : QSpanCollection :=
  let key := -(c.heap span).top
  let index :=
    match c.index.lowerBound key with
    | none => c.index.insert key .empty
    | some k =>
      if k ≠ key then
        c.index.insert key
          (splitSubIndex c.heap (c.heap span).top ((c.index.get? k).getD .empty))
      else c.index
  { c with
    spans := c.spans ++ [span]
    index := insertSpan c.heap span (index.keysDown key) index }

/-! ### Changing a span -/

/-- The span is removed from the rows of the keys that it has left, up to `last`. -/
def removeSpan (span : SpanId) (last : ℤ) : List ℤ → Index → Index
  | [], index => index
  | k :: keys, index =>
    if -k ≤ last then
      if (heap span).bottom < -k then
        let subIndex := ((index.get? k).getD .empty).erase (-(heap span).left)
        removeSpan span last keys
          (if subIndex.isEmpty then index.erase k else index.insert k subIndex)
      else removeSpan span last keys index
    else index

def updateSpan (c : QSpanCollection) (span : SpanId) (oldHeight : ℤ) : QSpanCollection :=
  let s := c.heap span
  let index :=
    if oldHeight < s.height then
      match c.index.lowerBound (-(s.top + oldHeight - 1)) with
      | none => c.index
      | some k => insertSpan c.heap span (c.index.keysDown k) c.index
    else if s.height < oldHeight then
      match c.index.lowerBound (-max s.bottom s.top) with
      | none => c.index
      | some k => removeSpan c.heap span (s.top + oldHeight - 1) (c.index.keysDown k) c.index
    else c.index
  { c with
    spans := if s.width = 0 ∧ s.height = 0 then c.spans.filter (· ≠ span) else c.spans
    index := index }

/-- The span that `spanAt` finds for the cell in column `x` and row `y`. -/
def spanAt (c : QSpanCollection) (x y : ℤ) : Option SpanId :=
  match c.index.lowerBound (-y) with
  | none => none
  | some rowKey =>
    let subIndex := (c.index.get? rowKey).getD .empty
    match subIndex.lowerBound (-x) with
    | none => none
    | some columnKey =>
      match subIndex.get? columnKey with
      | none => none
      | some span =>
        if x ≤ (c.heap span).right ∧ y ≤ (c.heap span).bottom then some span else none

/-- `QTableViewPrivate::setSpan`. -/
def setSpan (c : QSpanCollection) (row column rowSpan columnSpan : ℤ) : QSpanCollection :=
  if row < 0 ∨ column < 0 ∨ rowSpan ≤ 0 ∨ columnSpan ≤ 0 then c
  else
    match c.spanAt column row with
    | some sp =>
      let s := c.heap sp
      if s.top ≠ row ∨ s.left ≠ column then c
      else
        let rowCount := if rowSpan = 1 ∧ columnSpan = 1 then 0 else rowSpan
        let columnCount := if rowSpan = 1 ∧ columnSpan = 1 then 0 else columnSpan
        let s' : Span := { s with bottom := row + rowCount - 1, right := column + columnCount - 1 }
        updateSpan { c with objects := c.objects.set sp s' } sp s.height
    | none =>
      if rowSpan = 1 ∧ columnSpan = 1 then c
      else
        addSpan { c with objects := c.objects ++ [.new row column rowSpan columnSpan] }
          c.objects.length

/-! ### Inserting rows and columns -/

/-- A loop over the spans that changes each object. -/
def changeSpans (c : QSpanCollection) (f : Span → Span) : QSpanCollection :=
  { c with objects := c.spans.foldl (fun objects span => objects.modify span f) c.objects }

/-- The entries of the keys from the row or column `start` on are moved by `delta`. -/
def shiftKeys {V : Type} (start delta : ℤ) : List ℤ → OrderedMap ℤ V → OrderedMap ℤ V
  | [], m => m
  | k :: keys, m =>
    if -k < start then shiftKeys start delta keys m
    else
      match m.get? k with
      | none => shiftKeys start delta keys m
      | some v => shiftKeys start delta keys ((m.insert (k - delta) v).erase k)

/-- A row or column of a span behind which lines are inserted at `start`. -/
def insertedLine (start delta line : ℤ) : ℤ :=
  if start ≤ line then line + delta else line

def Span.insertedRows (start delta : ℤ) (s : Span) : Span :=
  if s.bottom < start then s
  else { s with top := insertedLine start delta s.top, bottom := s.bottom + delta }

def updateInsertedRows (c : QSpanCollection) (start stop : ℤ) : QSpanCollection :=
  if c.spans.isEmpty then c
  else
    let delta := stop - start + 1
    { c.changeSpans (Span.insertedRows start delta) with
      index := shiftKeys start delta c.index.keys c.index }

def Span.insertedColumns (start delta : ℤ) (s : Span) : Span :=
  if s.right < start then s
  else { s with left := insertedLine start delta s.left, right := s.right + delta }

def updateInsertedColumns (c : QSpanCollection) (start stop : ℤ) : QSpanCollection :=
  if c.spans.isEmpty then c
  else
    let delta := stop - start + 1
    { c.changeSpans (Span.insertedColumns start delta) with
      index := c.index.mapValues fun _ subIndex => shiftKeys start delta subIndex.keys subIndex }

/-! ### Removing rows and columns -/

/-- The loop of `cleanSpanSubIndex`, and whether no span starts at `y`. -/
def cleanKeys (y : ℤ) (update : Bool) : List ℤ → SubIndex → Bool → SubIndex × Bool
  | [], subIndex, shouldBeDeleted => (subIndex, shouldBeDeleted)
  | k :: keys, subIndex, shouldBeDeleted =>
    match subIndex.get? k with
    | none => cleanKeys y update keys subIndex shouldBeDeleted
    | some span =>
      if (heap span).willBeDeleted then cleanKeys y update keys (subIndex.erase k) shouldBeDeleted
      else
        cleanKeys y update keys
          (if update ∧ (heap span).left ≠ -k then
            (subIndex.insert (-(heap span).left) span).erase k
          else subIndex)
          (shouldBeDeleted && (heap span).top ≠ y)

def cleanSpanSubIndex (subIndex : SubIndex) (y : ℤ) (update : Bool) : SubIndex × Bool :=
  if subIndex.isEmpty then (subIndex, true)
  else cleanKeys heap y update subIndex.keys.reverse subIndex true

/-- The spans of a row that are not deleted. -/
def spansToBeMoved (subIndex : SubIndex) : SubIndex :=
  subIndex.entries.foldl
    (fun moved e => if (heap e.2).willBeDeleted then moved else moved.insert e.1 e.2) .empty

/-- Whether one of the spans starts at `start`. -/
def spanAtStart (start : ℤ) (subIndex : SubIndex) : Bool :=
  subIndex.entries.any fun e => !(heap e.2).willBeDeleted && (heap e.2).top = start

def insertAll (subIndex moved : SubIndex) : SubIndex :=
  moved.entries.foldl (fun subIndex e => subIndex.insert e.1 e.2) subIndex

/-- The second branch of the loop of `updateRemovedRows`: the row of the key `k` was removed, and
its spans are moved to the row `start` if one of them starts there. -/
def moveRow (start k : ℤ) (index : Index) : Index :=
  let subIndex := (index.get? k).getD .empty
  if spanAtStart heap start subIndex then
    let index := if -k = start then index.insert k .empty else index.erase k
    index.insert (-start)
      (insertAll ((index.get? (-start)).getD .empty) (spansToBeMoved heap subIndex))
  else index.erase k

/-- One turn of the loop of `updateRemovedRows`. -/
def removeRow (start stop k : ℤ) (index : Index) : Index :=
  let delta := stop - start + 1
  let subIndex := (index.get? k).getD .empty
  if -k < start then
    let (subIndex, shouldBeDeleted) := cleanSpanSubIndex heap subIndex (-k) false
    if shouldBeDeleted then index.erase k else index.insert k subIndex
  else if -k ≤ stop then
    -- A row that is inserted in front of the iterator is the next one that it comes to.
    if -k ≠ start ∧ spanAtStart heap start subIndex = true ∧ index.get? (-start) = none then
      moveRow heap start (-start) (moveRow heap start k index)
    else moveRow heap start k index
  else if -k = stop + 1 then
    let startSubIndex := (index.get? (k + delta)).getD .empty
    (index.insert (k + delta) (insertAll startSubIndex (spansToBeMoved heap subIndex))).erase k
  else (index.insert (k + delta) subIndex).erase k

/-- The loop of `updateRemovedRows`. -/
def removeRows (start stop : ℤ) : List ℤ → Index → Index
  | [], index => index
  | k :: keys, index => removeRows start stop keys (removeRow heap start stop k index)

/-- The lines from `first` to `last`, of which some are removed or move, and whether all are
removed. -/
def removedLines (start stop first last : ℤ) : ℤ × ℤ × Bool :=
  let delta := stop - start + 1
  if first < start then
    if last ≤ stop then (first, start - 1, false) else (first, last - delta, false)
  else if stop < last then
    (if first ≤ stop then start else first - delta, last - delta, false)
  else (first, last, true)

def Span.removedRows (start stop : ℤ) (s : Span) : Span :=
  if s.bottom < start then s
  else
    let (top, bottom, deleted) := removedLines start stop s.top s.bottom
    { s with
      top := top
      bottom := bottom
      willBeDeleted := s.willBeDeleted || deleted || (top = bottom && s.left = s.right) }

def updateRemovedRows (c : QSpanCollection) (start stop : ℤ) : QSpanCollection :=
  if c.spans.isEmpty then c
  else
    let c := c.changeSpans (Span.removedRows start stop)
    let spans := c.spans.filter fun span => !(c.heap span).willBeDeleted
    { c with
      spans := spans
      index :=
        if spans.isEmpty then .empty else removeRows c.heap start stop c.index.keys.reverse c.index }

def Span.removedColumns (start stop : ℤ) (s : Span) : Span :=
  if s.right < start then s
  else
    let (left, right, deleted) := removedLines start stop s.left s.right
    { s with
      left := left
      right := right
      willBeDeleted := s.willBeDeleted || deleted || (s.top = s.bottom && left = right) }

/-- The loop of `updateRemovedColumns` over the rows. -/
def cleanRows : List ℤ → Index → Index
  | [], index => index
  | k :: keys, index =>
    let (subIndex, shouldBeDeleted) :=
      cleanSpanSubIndex heap ((index.get? k).getD .empty) (-k) true
    cleanRows keys (if shouldBeDeleted then index.erase k else index.insert k subIndex)

def updateRemovedColumns (c : QSpanCollection) (start stop : ℤ) : QSpanCollection :=
  if c.spans.isEmpty then c
  else
    let c := c.changeSpans (Span.removedColumns start stop)
    let spans := c.spans.filter fun span => !(c.heap span).willBeDeleted
    { c with
      spans := spans
      index := if spans.isEmpty then .empty else cleanRows c.heap c.index.keys c.index }

/-! ### Runs -/

/-- A call of `setSpan`, or a change of the model that the view passes on. -/
inductive Call where
  | setSpan (row column rowSpan columnSpan : ℤ)
  | insertedRows (start stop : ℤ)
  | insertedColumns (start stop : ℤ)
  | removedRows (start stop : ℤ)
  | removedColumns (start stop : ℤ)
deriving DecidableEq, Repr

def step (c : QSpanCollection) : Call → QSpanCollection
  | .setSpan row column rowSpan columnSpan => c.setSpan row column rowSpan columnSpan
  | .insertedRows start stop => c.updateInsertedRows start stop
  | .insertedColumns start stop => c.updateInsertedColumns start stop
  | .removedRows start stop => c.updateRemovedRows start stop
  | .removedColumns start stop => c.updateRemovedColumns start stop

def run (c : QSpanCollection) (calls : List Call) : QSpanCollection :=
  calls.foldl step c

end QSpanCollection
