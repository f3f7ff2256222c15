import Mathlib.Data.Int.Notation
import Mathlib.Data.List.Sort

/-!
# Sort and filter proxies

`QSortFilterProxyModelPrivate` of `qsortfilterproxymodel.cpp`: how the rows or the columns of one
parent are mapped.  The source items that pass the filter stand in `proxyToSource` in the order of
the proxy; `sourceToProxy` is its inverse, where `none` stands for -1.  Items are removed and
inserted in intervals, each with a signal of its own.
-/

inductive SortOrder where
  | ascendingOrder
  | descendingOrder
deriving DecidableEq, Repr

inductive Direction where
  | rows
  | columns
deriving DecidableEq, Repr

/-- By what a proxy sorts; `lessThan` compares the indexes of two source rows in the source column
to sort by. -/
structure QSortFilterProxyModelPrivate where
  sourceSortColumn : ℤ
  sortOrder : SortOrder
  dynamicSortfilter : Bool
  lessThan : ℕ → ℕ → Bool

/-- A change of the proxy rows or columns that is signalled: the interval and, where items are
inserted, the source items that the proxy has there when the signal ends. -/
inductive Change where
  | inserted (first last : ℕ) (items : List ℕ)
  | removed (first last : ℕ)
deriving DecidableEq, Repr

/-- The mapping of the rows or of the columns, and the signals that have been emitted. -/
structure Mapping where
  sourceToProxy : List (Option ℕ)
  proxyToSource : List ℕ
  changes : List Change
deriving DecidableEq, Repr

namespace QSortFilterProxyModelPrivate

/-- `std::stable_sort`. -/
def stableSort (lessThan : ℕ → ℕ → Bool) (items : List ℕ) : List ℕ :=
  items.insertionSort fun a b => lessThan b a = false

def sortSourceRows (d : QSortFilterProxyModelPrivate) (sourceRows : List ℕ) : List ℕ :=
  if d.sourceSortColumn ≥ 0 then
    match d.sortOrder with
    | .ascendingOrder => stableSort d.lessThan sourceRows
    | .descendingOrder => stableSort (fun a b => d.lessThan b a) sourceRows
  else
    match d.sortOrder with
    | .ascendingOrder => stableSort (fun a b => a < b) sourceRows
    | .descendingOrder => stableSort (fun a b => a > b) sourceRows

/-- The loop of `build_source_to_proxy_mapping`: the items stand at `i` and behind. -/
def writeProxyItems (i : ℕ) : List ℕ → List (Option ℕ) → List (Option ℕ)
  | [], sourceToProxy => sourceToProxy
  | item :: items, sourceToProxy => writeProxyItems (i + 1) items (sourceToProxy.set item (some i))

def buildSourceToProxyMapping (proxyToSource : List ℕ) (sourceToProxy : List (Option ℕ))
    (start : ℕ) : List (Option ℕ) :=
  let sourceToProxy := if start = 0 then sourceToProxy.map fun _ => none else sourceToProxy
  writeProxyItems start (proxyToSource.drop start) sourceToProxy

/-! ### Removing items -/

/-- `source_to_proxy.at(item)`, which is not -1. -/
def proxyItem (sourceToProxy : List (Option ℕ)) (item : ℕ) : ℕ :=
  (sourceToProxy.getD item none).getD 0

/-- The loops that look for the end of an interval, which has come to `last`. -/
def intervalsFrom (sourceToProxy : List (Option ℕ)) (first last : ℕ) : List ℕ → List (ℕ × ℕ)
  | [] => [(first, last)]
  | item :: items =>
    let next := proxyItem sourceToProxy item
    if next = last + 1 then intervalsFrom sourceToProxy first (last + 1) items
    else (first, last) :: intervalsFrom sourceToProxy next next items

/-- `operator<` of pairs, or equality. -/
def PairLE (a b : ℕ × ℕ) : Prop :=
  a.1 < b.1 ∨ a.1 = b.1 ∧ a.2 ≤ b.2

instance (a b : ℕ × ℕ) : Decidable (PairLE a b) :=
  inferInstanceAs (Decidable (_ ∨ _))

/-- An interval is put in front of the intervals that have been consolidated; an adjacent one joins
it. -/
def consolidate (interval : ℕ × ℕ) : List (ℕ × ℕ) → List (ℕ × ℕ)
  | [] => [interval]
  | next :: intervals =>
    if next.1 = interval.2 + 1 then (interval.1, next.2) :: intervals
    else interval :: next :: intervals

def proxyIntervalsForSourceItems (sourceToProxy : List (Option ℕ)) :
    List ℕ → List (ℕ × ℕ)
  | [] => []
  | item :: items =>
    let first := proxyItem sourceToProxy item
    ((intervalsFrom sourceToProxy first first items).insertionSort PairLE).foldr consolidate []

def removeProxyInterval (m : Mapping) (proxyStart proxyEnd : ℕ) (emitSignal : Bool) : Mapping :=
  let removed := (m.proxyToSource.take (proxyEnd + 1)).drop proxyStart
  let sourceToProxy := removed.foldl (fun sourceToProxy item => sourceToProxy.set item none)
    m.sourceToProxy
  let proxyToSource := m.proxyToSource.take proxyStart ++ m.proxyToSource.drop (proxyEnd + 1)
  { sourceToProxy := buildSourceToProxyMapping proxyToSource sourceToProxy proxyStart
    proxyToSource := proxyToSource
    changes := m.changes ++ if emitSignal then [.removed proxyStart proxyEnd] else [] }

/-- `remove_source_items`; `filtered` tells that the parent is filtered out itself. -/
def removeSourceItems (m : Mapping) (sourceItems : List ℕ) (filtered emitSignal : Bool) : Mapping :=
  if filtered then { m with proxyToSource := [] }
  else
    (proxyIntervalsForSourceItems m.sourceToProxy sourceItems).foldr
      (fun interval m => removeProxyInterval m interval.1 interval.2 emitSignal) m

/-! ### Inserting items -/

/-- The comparison by which an item is placed: of the items in the column to sort by, or of the
source rows or columns. -/
def placedBefore (d : QSortFilterProxyModelPrivate) (direction : Direction) (a b : ℕ) : Bool :=
  if direction = .rows && d.sourceSortColumn ≥ 0 && d.dynamicSortfilter then
    match d.sortOrder with
    | .ascendingOrder => d.lessThan a b
    | .descendingOrder => d.lessThan b a
  else a < b

/-- The binary search for the place of an item between `proxy_low` and `proxy_high`, which is
`high - 1`. -/
def searchProxyItem (before : ℕ → ℕ → Bool) (proxyToSource : List ℕ) (item low high : ℕ) : ℕ :=
  if _h : low < high then
    let proxyItem := (low + (high - 1)) / 2
    if before item (proxyToSource.getD proxyItem 0) then
      searchProxyItem before proxyToSource item low proxyItem
    else searchProxyItem before proxyToSource item (proxyItem + 1) high
  else low
termination_by high - low

/-- The loops that collect the items of an interval: `items` have been collected at the place
`low`. -/
def intervalsToAdd (before : ℕ → ℕ → Bool) (proxyToSource : List ℕ) (low : ℕ) (items : List ℕ) :
    List ℕ → List (ℕ × List ℕ)
  | [] => [(low, items)]
  | item :: rest =>
    if low < proxyToSource.length && before (proxyToSource.getD low 0) item then
      (low, items) :: intervalsToAdd before proxyToSource
        (searchProxyItem before proxyToSource item low proxyToSource.length) [item] rest
    else intervalsToAdd before proxyToSource low (items ++ [item]) rest

def proxyIntervalsForSourceItemsToAdd (d : QSortFilterProxyModelPrivate) (proxyToSource : List ℕ)
    (direction : Direction) : List ℕ → List (ℕ × List ℕ)
  | [] => []
  | item :: items =>
    let before := d.placedBefore direction
    intervalsToAdd before proxyToSource
      (searchProxyItem before proxyToSource item 0 proxyToSource.length) [item] items

/-- What `insert_source_items` does for an interval. -/
def insertProxyInterval (m : Mapping) (proxyStart : ℕ) (sourceItems : List ℕ) (emitSignal : Bool) :
    Mapping :=
  let proxyEnd := proxyStart + sourceItems.length - 1
  let proxyToSource :=
    m.proxyToSource.take proxyStart ++ sourceItems ++ m.proxyToSource.drop proxyStart
  { sourceToProxy := buildSourceToProxyMapping proxyToSource m.sourceToProxy proxyStart
    proxyToSource := proxyToSource
    changes := m.changes ++
      if emitSignal then
        [.inserted proxyStart proxyEnd ((proxyToSource.take (proxyEnd + 1)).drop proxyStart)]
      else [] }

def insertSourceItems (d : QSortFilterProxyModelPrivate) (m : Mapping) (sourceItems : List ℕ)
    (direction : Direction) (filtered emitSignal : Bool) : Mapping :=
  if filtered then m
  else
    (d.proxyIntervalsForSourceItemsToAdd m.proxyToSource direction sourceItems).foldr
      (fun interval m => insertProxyInterval m interval.1 interval.2 emitSignal) m

/-! ### Source rows -/

/-- `create_mapping`, for the rows; `accepts` is the filter. -/
def createMapping (d : QSortFilterProxyModelPrivate) (accepts : ℕ → Bool) (count : ℕ) : Mapping :=
  let sourceRows := d.sortSourceRows ((List.range count).filter accepts)
  { sourceToProxy := buildSourceToProxyMapping sourceRows (List.replicate count none) 0
    proxyToSource := sourceRows
    changes := [] }

/-- The row that a row becomes where `count` rows are inserted at `start`. -/
def shift (start count row : ℕ) : ℕ :=
  if row ≥ start then row + count else row

/-- The source-to-proxy mapping is expanded for new rows, and the rows behind them are adjusted. -/
def expand (m : Mapping) (start count : ℕ) : Mapping :=
  let sourceToProxy :=
    m.sourceToProxy.take start ++ List.replicate count none ++ m.sourceToProxy.drop start
  if start < m.sourceToProxy.length then
    let proxyToSource := m.proxyToSource.map (shift start count)
    { m with
      sourceToProxy := buildSourceToProxyMapping proxyToSource sourceToProxy 0
      proxyToSource := proxyToSource }
  else { m with sourceToProxy := sourceToProxy }

/-- `source_items_inserted`, for `count` rows at `start` of a parent that is mapped.  `none` if the
source reports rows that it cannot have: the mapping is removed. -/
def sourceRowsInserted (d : QSortFilterProxyModelPrivate) (accepts : ℕ → Bool) (m : Mapping)
    (start count : ℕ) : Option Mapping :=
  if start > m.sourceToProxy.length then none
  else
    let sourceItems := (List.range' start count).filter accepts
    some (d.insertSourceItems (expand m start count) (d.sortSourceRows sourceItems) .rows false
      true)

/-- `handle_filter_changed`, for the rows. -/
def handleFilterChanged (d : QSortFilterProxyModelPrivate) (accepts : ℕ → Bool) (m : Mapping) :
    Mapping :=
  let sourceItemsRemove := m.proxyToSource.filter fun item => !accepts item
  let sourceItemsInsert := (List.range m.sourceToProxy.length).filter fun item =>
    m.sourceToProxy.getD item none = none && accepts item
  if sourceItemsRemove ≠ [] || sourceItemsInsert ≠ [] then
    let m := removeSourceItems m sourceItemsRemove false true
    d.insertSourceItems m (d.sortSourceRows sourceItemsInsert) .rows false true
  else m

end QSortFilterProxyModelPrivate
