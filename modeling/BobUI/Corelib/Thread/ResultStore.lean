import BobUI.Library.OrderedMap
import Mathlib.Algebra.Order.Group.Int

/-!
# The result store

The store of the results of a future, with its filter mode: results that are reported before the
ones in front of them are pending, and the indices of the results that are filtered away are taken
by those behind them.  The key of an item is the index of its first result.
-/

/-- A result, a vector of results, or results that are filtered away. -/
structure ResultItem (T : Type) where
  m_count : ℤ
  result : Option (List T)

namespace ResultItem

variable {T : Type}

def isValid (item : ResultItem T) : Bool :=
  item.result.isSome

def isVector (item : ResultItem T) : Bool :=
  item.m_count ≠ 0

def count (item : ResultItem T) : ℤ :=
  if item.m_count = 0 then 1 else item.m_count

end ResultItem

/-- An item of a store and a result in it; there is no iterator at the end of the store. -/
structure ResultIteratorBase (T : Type) where
  key : ℤ
  item : ResultItem T
  vectorIndex : ℤ

namespace ResultIteratorBase

variable {T : Type}

def batchSize (it : ResultIteratorBase T) : ℤ :=
  it.item.count

def isValid (it : ResultIteratorBase T) : Bool :=
  it.item.isValid

def value (it : ResultIteratorBase T) : Option T :=
  it.item.result.bind fun results =>
    if it.item.isVector then results[it.vectorIndex.toNat]? else results.head?

end ResultIteratorBase

section FindResult

variable {T : Type}

/-- The result in an item that was found for an index. -/
def resultInItem (index : ℤ) (entry : ℤ × ResultItem T) : Option (ResultIteratorBase T) :=
  let vectorIndex := index - entry.1
  if entry.2.count ≤ vectorIndex then none
  else if entry.2.isVector = false ∧ vectorIndex ≠ 0 then none
  else some ⟨entry.1, entry.2, vectorIndex⟩

def findResult (store : OrderedMap ℤ (ResultItem T)) (index : ℤ) :
    Option (ResultIteratorBase T) :=
  match store.entries.find? fun e => index ≤ e.1 with
  | none =>
    -- The end; the last item, if there is one, is the one before it.
    match store.entries.getLast? with
    | none => none
    | some entry => if entry.2.isVector = false then none else resultInItem index entry
  | some entry =>
    if index < entry.1 then
      match (store.entries.filter fun e => e.1 < entry.1).getLast? with
      | none => none
      | some before => resultInItem index before
    else resultInItem index entry

end FindResult

structure ResultStoreBase (T : Type) where
  m_results : OrderedMap ℤ (ResultItem T)
  /-- The index where the next results are inserted. -/
  insertIndex : ℤ
  /-- The number of consecutive results stored. -/
  resultCount : ℤ
  m_filterMode : Bool
  pendingResults : OrderedMap ℤ (ResultItem T)
  filteredResults : ℤ

namespace ResultStoreBase

variable {T : Type}

/-- The store that is constructed. -/
def new : ResultStoreBase T :=
  ⟨.empty, 0, 0, false, .empty, 0⟩

def setFilterMode (store : ResultStoreBase T) (enable : Bool) : ResultStoreBase T :=
  { store with m_filterMode := enable }

def resultAt (store : ResultStoreBase T) (index : ℤ) : Option (ResultIteratorBase T) :=
  findResult store.m_results index

def count (store : ResultStoreBase T) : ℤ :=
  store.resultCount

def contains (store : ResultStoreBase T) (index : ℤ) : Bool :=
  (store.resultAt index).isSome

/-- Each turn of the loop passes an item of the store. -/
def syncResultCountLoop : ℕ → ResultStoreBase T → ResultStoreBase T
  | 0, store => store
  | turns + 1, store =>
    match store.resultAt store.resultCount with
    | some it =>
      syncResultCountLoop turns { store with resultCount := store.resultCount + it.batchSize }
    | none => store

def syncResultCount (store : ResultStoreBase T) : ResultStoreBase T :=
  syncResultCountLoop store.m_results.entries.length store

def insertResultItemIfValid (store : ResultStoreBase T) (index : ℤ) (resultItem : ResultItem T) :
    ResultStoreBase T :=
  if resultItem.isValid then
    syncResultCount { store with m_results := store.m_results.insert index resultItem }
  else { store with filteredResults := store.filteredResults + resultItem.count }

/-- The index where results are inserted; the next free one for -1. -/
def updateInsertIndex (store : ResultStoreBase T) (index count : ℤ) : ℤ × ResultStoreBase T :=
  if index = -1 then
    (store.insertIndex, { store with insertIndex := store.insertIndex + count })
  else (index, { store with insertIndex := max (index + count) store.insertIndex })

/-- Insert the pending results from the first one on, as long as none is missing. -/
def syncPendingLoop :
    List (ℤ × ResultItem T) → ResultStoreBase T → ResultStoreBase T
  | [], store => store
  | (index, result) :: rest, store =>
    if index ≠ store.resultCount + store.filteredResults then store
    else
      let store := store.insertResultItemIfValid (index - store.filteredResults) result
      syncPendingLoop rest { store with pendingResults := store.pendingResults.erase index }

def syncPendingResults (store : ResultStoreBase T) : ResultStoreBase T :=
  syncPendingLoop store.pendingResults.entries store

def insertResultItem (store : ResultStoreBase T) (index : ℤ) (resultItem : ResultItem T) :
    ℤ × ResultStoreBase T :=
  if store.m_filterMode ∧ index ≠ -1 ∧ store.insertIndex < index then
    let store := { store with pendingResults := store.pendingResults.insert index resultItem }
    (index, store.syncPendingResults)
  else
    let updated := store.updateInsertIndex index resultItem.count
    let store := updated.2.insertResultItemIfValid (updated.1 - updated.2.filteredResults) resultItem
    (updated.1, store.syncPendingResults)

def containsValidResultItem (store : ResultStoreBase T) (index : ℤ) : Bool :=
  let inPending := store.m_filterMode && index ≠ -1 && store.insertIndex < index
  match findResult (if inPending then store.pendingResults else store.m_results) index with
  | some it => it.isValid
  | none => false

/-- The results of a vector, and the items that stand for those filtered away behind them. -/
def insertResults (store : ResultStoreBase T) (index : ℤ) (results : Option (List T))
    (vectorSize totalCount : ℤ) : ℤ × ResultStoreBase T :=
  if store.m_filterMode = false ∨ vectorSize = totalCount then
    store.insertResultItem index ⟨vectorSize, results⟩
  else
    let store :=
      if 0 < vectorSize then (store.insertResultItem index ⟨vectorSize, results⟩).2 else store
    store.insertResultItem (index + vectorSize) ⟨totalCount - vectorSize, none⟩

/-- Results are rejected if they are present, or if there are none and none is filtered away. -/
def addResults (store : ResultStoreBase T) (index : ℤ) (results : List T) (totalCount : ℤ) :
    ℤ × ResultStoreBase T :=
  if (store.m_filterMode = false ∨ (results.length : ℤ) = totalCount) ∧ results = [] then
    (-1, store)
  else if store.containsValidResultItem index then (-1, store)
  else if store.m_filterMode = true ∧ (results.length : ℤ) ≠ totalCount ∧ results = [] then
    store.insertResults index none 0 totalCount
  else store.insertResults index (some results) results.length totalCount

end ResultStoreBase
