import BobUI.Corelib.Thread.ResultStore
import Mathlib.Algebra.Ring.Int.Defs
import Mathlib.Data.List.Infix
import Mathlib.Data.List.Perm.Basic

/-!
# Filtered results in order

In filter mode the visible results of a store are those of the items in front of the first missing
one, whatever the order in which the items are inserted.
-/

namespace ResultItem

variable {T : Type}

/-- A vector of results that is not empty, or results that are filtered away. -/
structure WellFormed (item : ResultItem T) : Prop where
  pos : 0 < item.m_count
  size : ∀ results, item.result = some results → (results.length : ℤ) = item.m_count

def kept (item : ResultItem T) : List T :=
  item.result.getD []

variable {item : ResultItem T}

theorem WellFormed.count_eq (h : item.WellFormed) :
  item.count = item.m_count
  := if_neg (Int.ne_of_gt h.pos)

theorem WellFormed.isVector_eq (h : item.WellFormed) :
  item.isVector = true
  := decide_eq_true (Int.ne_of_gt h.pos)

theorem WellFormed.length_kept (h : item.WellFormed) (hvalid : item.isValid = true) :
  (item.kept.length : ℤ) = item.m_count
  := by
  obtain ⟨results, hresults⟩ := Option.isSome_iff_exists.mp hvalid
  rw [← h.size results hresults, kept, hresults, Option.getD_some]

end ResultItem

/-! ### Items side by side -/

/-- The items fill the indices from `lo` to `hi`. -/
def Tiles {T : Type} : ℤ → List (ℤ × ResultItem T) → ℤ → Prop
  | lo, [], hi => lo = hi
  | lo, e :: es, hi => e.1 = lo ∧ e.2.WellFormed ∧ Tiles (lo + e.2.m_count) es hi

section Tiles

variable {T : Type} {es xs ys : List (ℤ × ResultItem T)} {lo hi : ℤ}

theorem tiles_append :
  Tiles lo (xs ++ ys) hi ↔ ∃ mid, Tiles lo xs mid ∧ Tiles mid ys hi
  := by
  induction xs generalizing lo with
  | nil =>
    constructor
    · intro h
      exact ⟨lo, rfl, h⟩
    · rintro ⟨mid, rfl, h⟩
      exact h
  | cons e xs ih =>
    simp only [List.cons_append, Tiles, ih]
    constructor
    · rintro ⟨hkey, hitem, mid, hxs, hys⟩
      exact ⟨mid, ⟨hkey, hitem, hxs⟩, hys⟩
    · rintro ⟨mid, ⟨hkey, hitem, hxs⟩, hys⟩
      exact ⟨hkey, hitem, mid, hxs, hys⟩

theorem Tiles.le (h : Tiles lo es hi) :
  lo ≤ hi
  := by
  induction es generalizing lo with
  | nil => exact Int.le_of_eq h
  | cons e es ih =>
    obtain ⟨-, hitem, hes⟩ := h
    have hle := ih hes
    have hpos := hitem.pos
    omega

theorem Tiles.mem (h : Tiles lo es hi) {e : ℤ × ResultItem T} (he : e ∈ es) :
  lo ≤ e.1 ∧ e.1 + e.2.m_count ≤ hi ∧ e.2.WellFormed
  := by
  obtain ⟨xs, ys, rfl⟩ := List.append_of_mem he
  obtain ⟨mid, hxs, rfl, hitem, hys⟩ := tiles_append.mp h
  exact ⟨hxs.le, hys.le, hitem⟩

/-- Items that share an index are the same. -/
theorem Tiles.eq_of_overlap (h : Tiles lo es hi) {e e' : ℤ × ResultItem T} (he : e ∈ es)
    (he' : e' ∈ es) (hle : e.1 ≤ e'.1) (hlt : e'.1 < e.1 + e.2.m_count) :
  e = e'
  := by
  obtain ⟨xs, ys, rfl⟩ := List.append_of_mem he
  obtain ⟨mid, hxs, rfl, hitem, hys⟩ := tiles_append.mp h
  rcases List.mem_append.mp he' with hbefore | hafter
  · have hend := hxs.mem hbefore
    have hpos := hend.2.2.pos
    omega
  · rcases List.mem_cons.mp hafter with heq | hafter
    · exact heq.symm
    · have hstart := hys.mem hafter
      omega

/-- An index is in one of the items. -/
theorem Tiles.cover (h : Tiles lo es hi) {index : ℤ} (hlo : lo ≤ index) (hhi : index < hi) :
  ∃ xs e ys, es = xs ++ e :: ys ∧ e.1 ≤ index ∧ index < e.1 + e.2.m_count
  := by
  induction es generalizing lo with
  | nil =>
    have heq : lo = hi := h
    omega
  | cons e es ih =>
    obtain ⟨rfl, hitem, hes⟩ := h
    rcases Int.lt_or_le index (e.1 + e.2.m_count) with hlt | hge
    · exact ⟨[], e, es, rfl, hlo, hlt⟩
    · obtain ⟨xs, e', ys, rfl, he'⟩ := ih hes hge
      exact ⟨e :: xs, e', ys, rfl, he'⟩

theorem Tiles.length_flatMap (h : Tiles lo es hi) (hvalid : ∀ e ∈ es, e.2.isValid = true) :
  ((es.flatMap fun e => e.2.kept).length : ℤ) = hi - lo
  := by
  induction es generalizing lo with
  | nil =>
    rw [show lo = hi from h]
    exact (Int.sub_self hi).symm
  | cons e es ih =>
    obtain ⟨-, hitem, hes⟩ := h
    have hrest := ih hes fun e he => hvalid e (List.mem_cons_of_mem _ he)
    have hkept := hitem.length_kept (hvalid e List.mem_cons_self)
    rw [List.flatMap_cons, List.length_append, Int.natCast_add, hrest, hkept]
    omega

end Tiles

/-! ### Finding results -/

section FindResult

variable {T : Type} {store : OrderedMap ℤ (ResultItem T)} {index : ℤ}

/-- What is found for an index is in an item over it. -/
theorem findResult_mem {it : ResultIteratorBase T} (h : findResult store index = some it) :
  ∃ e ∈ store.entries, it = ⟨e.1, e.2, index - e.1⟩ ∧ e.1 ≤ index ∧ index < e.1 + e.2.count
  := by
  have hitem : ∀ e : ℤ × ResultItem T, resultInItem index e = some it →
      it = ⟨e.1, e.2, index - e.1⟩ ∧ index < e.1 + e.2.count := by
    intro e hsome
    simp only [resultInItem, Option.ite_none_left_eq_some, Option.some.injEq] at hsome
    exact ⟨hsome.2.2.symm, by omega⟩
  unfold findResult at h
  split at h
  next hnone =>
    split at h
    next => cases h
    next e hlast =>
      simp only [Option.ite_none_left_eq_some] at h
      have hmem := List.mem_of_getLast? hlast
      have hlt := List.find?_eq_none.mp hnone e hmem
      rw [decide_eq_true_eq] at hlt
      obtain ⟨hit, hend⟩ := hitem e h.2
      exact ⟨e, hmem, hit, by omega, hend⟩
  next e hfind =>
    split at h
    next hlt =>
      split at h
      next => cases h
      next e' hlast =>
        have hfilter := List.mem_filter.mp (List.mem_of_getLast? hlast)
        obtain ⟨-, xs, ys, hentries, hnot⟩ := List.find?_eq_some_iff_append.mp hfind
        have hsorted := store.sorted
        rw [hentries, List.pairwise_append, List.pairwise_cons] at hsorted
        have hmem := hfilter.1
        rw [hentries] at hmem
        have hkey := of_decide_eq_true hfilter.2
        have hle : e'.1 ≤ index := by
          rcases List.mem_append.mp hmem with hbefore | hafter
          · have hless := hnot e' hbefore
            simp only [Bool.not_eq_true', decide_eq_false_iff_not] at hless
            omega
          · rcases List.mem_cons.mp hafter with rfl | hafter
            · omega
            · have hgreater := hsorted.2.1.1 e' hafter
              omega
        obtain ⟨hit, hend⟩ := hitem e' h
        exact ⟨e', hfilter.1, hit, hle, hend⟩
    next hle =>
      have hmem := List.mem_of_find?_eq_some hfind
      obtain ⟨hit, hend⟩ := hitem e h
      have hkey := List.find?_some hfind
      rw [decide_eq_true_eq] at hkey
      exact ⟨e, hmem, hit, by omega, hend⟩

/-- A vector over an index is found, if those behind it begin behind the index. -/
theorem findResult_append {xs ys : List (ℤ × ResultItem T)} {e : ℤ × ResultItem T}
    (hentries : store.entries = xs ++ e :: ys) (hle : e.1 ≤ index)
    (hlt : index < e.1 + e.2.count) (hvector : e.2.isVector = true)
    (hbehind : ∀ y ∈ ys, index < y.1) :
  findResult store index = some ⟨e.1, e.2, index - e.1⟩
  := by
  have hsorted := store.sorted
  rw [hentries, List.pairwise_append, List.pairwise_cons] at hsorted
  have hitem : resultInItem index e = some ⟨e.1, e.2, index - e.1⟩ := by
    simp only [resultInItem]
    rw [if_neg (by omega), if_neg (by rw [hvector]; exact fun h => nomatch h.1)]
  have hfront : xs.find? (fun e => decide (index ≤ e.1)) = none := by
    rw [List.find?_eq_none]
    intro x hx
    have hkey := hsorted.2.2 x hx e List.mem_cons_self
    rw [decide_eq_true_eq]
    omega
  unfold findResult
  rw [hentries, List.find?_append, hfront, Option.none_or]
  rcases Int.lt_or_eq_of_le hle with hbefore | rfl
  · rw [List.find?_cons_of_neg (by rw [decide_eq_true_eq]; omega)]
    cases ys with
    | nil =>
      rw [List.find?_nil]
      dsimp only
      rw [List.getLast?_append, List.getLast?_singleton, Option.some_or]
      dsimp only
      rw [if_neg (by rw [hvector]; decide), hitem]
    | cons y ys =>
      have hy := hbehind y List.mem_cons_self
      rw [List.find?_cons_of_pos (by rw [decide_eq_true_eq]; omega)]
      dsimp only
      have hfilter : (xs ++ e :: y :: ys).filter (fun z => decide (z.1 < y.1)) = xs ++ [e] := by
        rw [List.filter_append, List.filter_cons_of_pos (by rw [decide_eq_true_eq]; omega),
          List.filter_cons_of_neg (by rw [decide_eq_true_eq]; omega)]
        have hys : ys.filter (fun z => decide (z.1 < y.1)) = [] := by
          rw [List.filter_eq_nil_iff]
          intro z hz
          have hkey := (List.pairwise_cons.mp hsorted.2.1.2).1 z hz
          rw [decide_eq_true_eq]
          omega
        have hxs : xs.filter (fun z => decide (z.1 < y.1)) = xs := by
          rw [List.filter_eq_self]
          intro x hx
          have hkey := hsorted.2.2 x hx y (List.mem_cons_of_mem _ List.mem_cons_self)
          rw [decide_eq_true_eq]
          exact hkey
        rw [hys, hxs]
      rw [if_pos hy, hfilter, List.getLast?_append, List.getLast?_singleton, Option.some_or]
      exact hitem
  · rw [List.find?_cons_of_pos (by rw [decide_eq_true_eq])]
    dsimp only
    rw [if_neg (Int.lt_irrefl _)]
    exact hitem

/-- The results of items side by side are found at their indices. -/
theorem findResult_value {lo hi : ℤ} (h : Tiles lo store.entries hi)
    (hvalid : ∀ e ∈ store.entries, e.2.isValid = true) (i : ℕ) :
  (findResult store (lo + i)).bind (fun it => it.value)
    = (store.entries.flatMap fun e => e.2.kept)[i]?
  := by
  have hlength := h.length_flatMap hvalid
  rcases Int.lt_or_le (lo + i) hi with hlt | hge
  · obtain ⟨xs, e, ys, hentries, hle, hend⟩ := h.cover (by omega) hlt
    rw [hentries] at h hvalid
    obtain ⟨mid, hxs, rfl, hitem, hys⟩ := tiles_append.mp h
    have hmem : e ∈ xs ++ e :: ys := List.mem_append_right _ List.mem_cons_self
    have hfront := hxs.length_flatMap fun x hx => hvalid x (List.mem_append_left _ hx)
    have hkept := hitem.length_kept (hvalid e hmem)
    rw [findResult_append hentries hle (hitem.count_eq.symm ▸ hend) hitem.isVector_eq
      (fun y hy => by
        have hstart := (hys.mem hy).1
        omega), hentries, List.flatMap_append, List.flatMap_cons,
      List.getElem?_append_right (by omega), List.getElem?_append_left (by omega)]
    obtain ⟨results, hresults⟩ := Option.isSome_iff_exists.mp (hvalid e hmem)
    rw [Option.bind_some, ResultIteratorBase.value]
    dsimp only
    rw [hresults, Option.bind_some, hitem.isVector_eq, if_pos rfl, ResultItem.kept, hresults,
      Option.getD_some]
    congr 1
    omega
  · rw [List.getElem?_eq_none (by omega)]
    cases hfind : findResult store (lo + i) with
    | none => rfl
    | some it =>
      obtain ⟨e, he, -, -, hend⟩ := findResult_mem hfind
      have hmem := h.mem he
      rw [hmem.2.2.count_eq] at hend
      omega

end FindResult

namespace ResultStoreBase

variable {T : Type}

/-! ### The loops -/

/-- A loop with as many turns as there are items past the visible results reaches the first
missing one. -/
theorem syncResultCountLoop_ends {turns : ℕ} {store : ResultStoreBase T}
    (hcount : ∀ e ∈ store.m_results.entries, 0 ≤ e.2.m_count)
    (hturns : (store.m_results.entries.filter fun e =>
      store.resultCount < e.1 + e.2.count).length ≤ turns) :
  (syncResultCountLoop turns store).resultAt (syncResultCountLoop turns store).resultCount = none
  := by
  induction turns generalizing store with
  | zero =>
    rw [syncResultCountLoop]
    cases hat : store.resultAt store.resultCount with
    | none => rfl
    | some it =>
      obtain ⟨e, he, -, -, hend⟩ := findResult_mem hat
      have hnil := List.eq_nil_of_length_eq_zero (Nat.le_zero.mp hturns)
      have hnot := List.filter_eq_nil_iff.mp hnil e he
      rw [decide_eq_true_eq] at hnot
      exact absurd hend hnot
  | succ turns ih =>
    rw [syncResultCountLoop]
    cases hat : store.resultAt store.resultCount with
    | none => exact hat
    | some it =>
      obtain ⟨e, he, rfl, hle, hend⟩ := findResult_mem hat
      refine @ih { store with resultCount := store.resultCount + e.2.count }
        hcount (Nat.le_of_lt_succ (Nat.lt_of_lt_of_le ?_ hturns))
      have hpos : 0 < e.2.count := by
        have hnonneg := hcount e he
        unfold ResultItem.count
        split
        · decide
        · omega
      -- The item that was found is no longer past the visible results.
      have hsub : (store.m_results.entries.filter fun e' =>
            store.resultCount + e.2.count < e'.1 + e'.2.count)
          = (store.m_results.entries.filter fun e' =>
            store.resultCount < e'.1 + e'.2.count).filter fun e' =>
            store.resultCount + e.2.count < e'.1 + e'.2.count := by
        rw [List.filter_filter]
        congr 1
        funext e'
        rw [← Bool.decide_and]
        congr 1
        apply propext
        omega
      dsimp only
      rw [hsub, List.length_filter_lt_length_iff_exists]
      refine ⟨e, List.mem_filter.mpr ⟨he, decide_eq_true hend⟩, ?_⟩
      rw [decide_eq_true_eq]
      omega

/-- The loop that counts the visible results ends at the first missing one. -/
theorem syncResultCount_ends {store : ResultStoreBase T}
    (hcount : ∀ e ∈ store.m_results.entries, 0 ≤ e.2.m_count) :
  store.syncResultCount.resultAt store.syncResultCount.resultCount = none
  := syncResultCountLoop_ends hcount (List.length_filter_le _ _)

theorem syncResultCount_ends_batch :
  (syncResultCount ⟨.insert .empty 0 ⟨2, some [5, 6]⟩, 2, 0, false, .empty, 0⟩).resultAt
    (@syncResultCount ℕ ⟨.insert .empty 0 ⟨2, some [5, 6]⟩, 2, 0, false, .empty, 0⟩).resultCount
    = none
  := syncResultCount_ends (by decide)

theorem syncResultCountLoop_pendingResults (turns : ℕ) (store : ResultStoreBase T) :
  (syncResultCountLoop turns store).pendingResults = store.pendingResults
  := by
  induction turns generalizing store with
  | zero => rfl
  | succ turns ih =>
    rw [syncResultCountLoop]
    split
    · rw [ih]
    · rfl

theorem insertResultItemIfValid_pendingResults (store : ResultStoreBase T) (index : ℤ)
    (item : ResultItem T) :
  (store.insertResultItemIfValid index item).pendingResults = store.pendingResults
  := by
  unfold insertResultItemIfValid
  split
  · rw [syncResultCount, syncResultCountLoop_pendingResults]
  · rfl

/-! ### The visible results -/

/-- The results of the store, from the first one on. -/
structure Visible (store : ResultStoreBase T) (results : List T) : Prop where
  tiles : Tiles 0 store.m_results.entries store.resultCount
  valid : ∀ e ∈ store.m_results.entries, e.2.isValid = true
  kept : (store.m_results.entries.flatMap fun e => e.2.kept) = results

theorem visible_new :
  (new : ResultStoreBase T).Visible []
  := by
  refine ⟨rfl, ?_, rfl⟩
  intro e he
  cases he

theorem Visible.value {store : ResultStoreBase T} {results : List T} (h : store.Visible results)
    (i : ℕ) :
  (store.resultAt i).bind (fun it => it.value) = results[i]?
  := by
  rw [← h.kept, resultAt, ← findResult_value h.tiles h.valid, Int.zero_add]

theorem Visible.count {store : ResultStoreBase T} {results : List T} (h : store.Visible results) :
  store.count = results.length
  := by
  rw [← h.kept, h.tiles.length_flatMap h.valid]
  exact (Int.sub_zero _).symm

variable {index : ℤ}

/-- Nothing is found behind the visible results. -/
theorem Visible.findResult_eq_none {store : ResultStoreBase T} {results : List T}
    (h : store.Visible results) (hindex : store.resultCount ≤ index) :
  findResult store.m_results index = none
  := by
  cases hfind : findResult store.m_results index with
  | none => rfl
  | some it =>
    obtain ⟨e, he, -, -, hend⟩ := findResult_mem hfind
    have hmem := h.tiles.mem he
    rw [hmem.2.2.count_eq] at hend
    omega

variable {store : ResultStoreBase T} {results : List T} {item : ResultItem T}

/-- An item with results that is inserted behind the visible results is counted. -/
theorem insertResultItemIfValid_of_valid (h : store.Visible results) (hitem : item.WellFormed)
    (hvalid : item.isValid = true) :
  store.insertResultItemIfValid store.resultCount item
    = { store with
        m_results := store.m_results.insert store.resultCount item
        resultCount := store.resultCount + item.m_count }
    ∧ (store.insertResultItemIfValid store.resultCount item).Visible (results ++ item.kept)
  := by
  have hentries : (store.m_results.insert store.resultCount item).entries
      = store.m_results.entries ++ [(store.resultCount, item)] := by
    apply OrderedMap.entries_insert (List.append_nil _).symm
    · intro e he
      have hmem := h.tiles.mem he
      have hpos := hmem.2.2.pos
      omega
    · intro e he
      cases he
  have hvisible : ({ store with
      m_results := store.m_results.insert store.resultCount item
      resultCount := store.resultCount + item.m_count } : ResultStoreBase T).Visible
        (results ++ item.kept) := by
    constructor
    · dsimp only
      rw [hentries, tiles_append]
      exact ⟨store.resultCount, h.tiles, rfl, hitem, rfl⟩
    · intro e he
      dsimp only at he
      rw [hentries] at he
      rcases List.mem_append.mp he with hbefore | hnew
      · exact h.valid e hbefore
      · obtain rfl := List.mem_singleton.mp hnew
        exact hvalid
    · dsimp only
      rw [hentries, List.flatMap_append, h.kept, List.flatMap_singleton]
  have heq : store.insertResultItemIfValid store.resultCount item
      = { store with
        m_results := store.m_results.insert store.resultCount item
        resultCount := store.resultCount + item.m_count } := by
    have hfound : findResult (store.m_results.insert store.resultCount item) store.resultCount
        = some ⟨store.resultCount, item, store.resultCount - store.resultCount⟩ := by
      refine findResult_append hentries (Int.le_refl _) ?_ hitem.isVector_eq ?_
      · have hpos := hitem.pos
        rw [hitem.count_eq]
        dsimp only
        omega
      · intro y hy
        cases hy
    have hend := hvisible.findResult_eq_none (Int.le_refl _)
    dsimp only at hend
    rw [insertResultItemIfValid, if_pos hvalid, syncResultCount]
    dsimp only
    rw [hentries, List.length_append, List.length_singleton, syncResultCountLoop, resultAt]
    dsimp only
    rw [hfound]
    dsimp only [ResultIteratorBase.batchSize]
    rw [hitem.count_eq]
    cases store.m_results.entries.length with
    | zero => rfl
    | succ turns =>
      rw [syncResultCountLoop, resultAt]
      dsimp only
      rw [hend]
  exact ⟨heq, heq ▸ hvisible⟩

/-! ### Items in front of and behind the first missing one -/

/-- The items in `front` are inserted; of those in `rest`, which follow them, the ones whose index
is `done` are pending. -/
structure Split (store : ResultStoreBase T) (front rest : List (ℤ × ResultItem T))
    (done : ℤ → Bool) (hi : ℤ) : Prop where
  mode : store.m_filterMode = true
  visible : store.Visible (front.flatMap fun e => e.2.kept)
  filtered_nonneg : 0 ≤ store.filteredResults
  tiles : Tiles (store.resultCount + store.filteredResults) rest hi
  insert_le : store.insertIndex ≤ store.resultCount + store.filteredResults
  pending : store.pendingResults.entries = rest.filter fun e => done e.1

variable {front rest : List (ℤ × ResultItem T)} {done : ℤ → Bool} {hi : ℤ}

/-- The first item of `rest` is inserted, whatever is pending. -/
theorem Split.insertFirst {e : ℤ × ResultItem T} (h : store.Split front (e :: rest) done hi)
    (store' : ResultStoreBase T) (pending : OrderedMap ℤ (ResultItem T)) (done' : ℤ → Bool)
    (hstore' : store' = { store with insertIndex := store'.insertIndex })
    (hinsert : store'.insertIndex ≤ e.1 + e.2.m_count)
    (hpending : pending.entries = rest.filter fun e => done' e.1) :
  ({ store'.insertResultItemIfValid (e.1 - store'.filteredResults) e.2 with
      pendingResults := pending } : ResultStoreBase T).Split (front ++ [e]) rest done' hi
  := by
  obtain ⟨hkey, hitem, hrest⟩ := h.tiles
  have hvisible : store'.Visible (front.flatMap fun e => e.2.kept) := by
    rw [hstore']
    exact ⟨h.visible.tiles, h.visible.valid, h.visible.kept⟩
  have hmode : store'.m_filterMode = true := by
    rw [hstore']
    exact h.mode
  have hcount : store'.resultCount = store.resultCount := by rw [hstore']
  have hfiltered : store'.filteredResults = store.filteredResults := by rw [hstore']
  have hnonneg := h.filtered_nonneg
  have hpos := hitem.pos
  rw [show e.1 - store'.filteredResults = store'.resultCount by omega]
  by_cases hvalid : e.2.isValid = true
  · obtain ⟨heq, hresults⟩ := insertResultItemIfValid_of_valid hvisible hitem hvalid
    rw [heq] at hresults ⊢
    constructor
    · exact hmode
    · rw [List.flatMap_append, List.flatMap_singleton]
      exact ⟨hresults.tiles, hresults.valid, hresults.kept⟩
    · dsimp only
      omega
    · dsimp only
      rw [show store'.resultCount + e.2.m_count + store'.filteredResults
        = store.resultCount + store.filteredResults + e.2.m_count by omega]
      exact hrest
    · dsimp only
      omega
    · exact hpending
  · have hkept : e.2.kept = [] := by
      rw [ResultItem.isValid, Bool.not_eq_true, Option.isSome_eq_false_iff,
        Option.isNone_iff_eq_none] at hvalid
      rw [ResultItem.kept, hvalid]
      rfl
    rw [insertResultItemIfValid, if_neg hvalid, hitem.count_eq]
    constructor
    · exact hmode
    · rw [List.flatMap_append, List.flatMap_singleton, hkept, List.append_nil]
      exact ⟨hvisible.tiles, hvisible.valid, hvisible.kept⟩
    · dsimp only
      omega
    · dsimp only
      rw [show store'.resultCount + (store'.filteredResults + e.2.m_count)
        = store.resultCount + store.filteredResults + e.2.m_count by omega]
      exact hrest
    · dsimp only
      omega
    · exact hpending

/-- The items in front are done, and the first of the others is not. -/
structure Settled (store : ResultStoreBase T) (front rest : List (ℤ × ResultItem T))
    (done : ℤ → Bool) (hi : ℤ) : Prop extends store.Split front rest done hi where
  front_done : ∀ e ∈ front, done e.1 = true
  first_missing : ∀ e ∈ rest.head?, done e.1 = false

/-- The pending items in front of the first missing one are inserted. -/
theorem Split.syncPendingLoop (h : store.Split front rest done hi)
    (hfront : ∀ e ∈ front, done e.1 = true) :
  ∃ front' rest', front ++ rest = front' ++ rest'
    ∧ (ResultStoreBase.syncPendingLoop (rest.filter fun e => done e.1) store).Settled
      front' rest' done hi
  := by
  induction rest generalizing store front with
  | nil =>
    refine ⟨front, [], rfl, h, hfront, ?_⟩
    intro e he
    cases he
  | cons e rest ih =>
    by_cases hdone : done e.1 = true
    · have hfilter : (e :: rest).filter (fun e => done e.1)
          = e :: rest.filter fun e => done e.1 := List.filter_cons_of_pos hdone
      have hbehind := (List.pairwise_cons.mp
        (h.pending.trans hfilter ▸ store.pendingResults.sorted)).1
      have herase : (store.pendingResults.erase e.1).entries
          = rest.filter fun e => done e.1 := by
        rw [OrderedMap.erase]
        dsimp only
        rw [h.pending, hfilter, List.filter_cons_of_neg (by simp), List.filter_eq_self]
        intro e' he'
        exact decide_eq_true (Int.ne_of_gt (hbehind e' he'))
      have hle : store.insertIndex ≤ e.1 + e.2.m_count := by
        have hinsert := h.insert_le
        have hkey := h.tiles.1
        have hpos := h.tiles.2.1.pos
        omega
      have hnext := h.insertFirst store _ done rfl hle herase
      obtain ⟨front', rest', heq, hsettled⟩ := ih hnext (by
        intro e' he'
        rcases List.mem_append.mp he' with hbefore | hnew
        · exact hfront e' hbefore
        · rw [List.mem_singleton.mp hnew]
          exact hdone)
      refine ⟨front', rest', ?_, ?_⟩
      · rw [← heq, List.append_assoc, List.singleton_append]
      · rw [hfilter, ResultStoreBase.syncPendingLoop, if_neg (not_not.mpr h.tiles.1)]
        dsimp only
        rw [insertResultItemIfValid_pendingResults]
        exact hsettled
    · have hstay : ResultStoreBase.syncPendingLoop ((e :: rest).filter fun e => done e.1) store
          = store := by
        rw [show (e :: rest).filter (fun e => done e.1) = rest.filter fun e => done e.1 from
          List.filter_cons_of_neg hdone]
        cases hentries : rest.filter (fun e => done e.1) with
        | nil => rfl
        | cons e' entries =>
          have hmem : e' ∈ rest := (List.mem_filter.mp (hentries ▸ List.mem_cons_self)).1
          have hkey := (h.tiles.2.2.mem hmem).1
          have hpos := h.tiles.2.1.pos
          rw [ResultStoreBase.syncPendingLoop, if_pos (by omega)]
      refine ⟨front, e :: rest, rfl, hstay.symm ▸ h, hfront, ?_⟩
      intro e' he'
      rw [List.head?_cons, Option.mem_some] at he'
      rw [← he']
      exact Bool.eq_false_of_not_eq_true hdone

theorem Split.syncPendingResults (h : store.Split front rest done hi)
    (hfront : ∀ e ∈ front, done e.1 = true) :
  ∃ front' rest', front ++ rest = front' ++ rest'
    ∧ store.syncPendingResults.Settled front' rest' done hi
  := by
  rw [ResultStoreBase.syncPendingResults, h.pending]
  exact h.syncPendingLoop hfront

/-! ### Inserting an item -/

/-- The indices that are done after another one is. -/
def withIndex (index : ℤ) (done : ℤ → Bool) (k : ℤ) : Bool :=
  k = index || done k

/-- The pending items with a missing one. -/
theorem Split.pending_insert (h : store.Split front rest done hi) (hrest : (index, item) ∈ rest)
    (hnew : done index = false) :
  (store.pendingResults.insert index item).entries
    = rest.filter fun e => withIndex index done e.1
  := by
  obtain ⟨xs, ys, rfl⟩ := List.append_of_mem hrest
  obtain ⟨mid, hxs, hkey, hitem, hys⟩ := tiles_append.mp h.tiles
  have hbefore : ∀ x ∈ xs, x.1 < index := by
    intro x hx
    have hmem := hxs.mem hx
    have hpos := hmem.2.2.pos
    dsimp only at hkey
    omega
  have hafter : ∀ y ∈ ys, index < y.1 := by
    intro y hy
    have hmem := hys.mem hy
    have hpos := hitem.pos
    dsimp only at hkey hmem hpos
    omega
  have hcongr : ∀ es : List (ℤ × ResultItem T), (∀ e ∈ es, e.1 ≠ index) →
      es.filter (fun e => withIndex index done e.1) = es.filter fun e => done e.1 := by
    intro es hes
    apply List.filter_congr
    intro e he
    rw [withIndex, decide_eq_false (hes e he), Bool.false_or]
  rw [List.filter_append, hcongr xs fun x hx => Int.ne_of_lt (hbefore x hx),
    List.filter_cons_of_pos (by rw [withIndex, decide_eq_true rfl, Bool.true_or]),
    hcongr ys fun y hy => Int.ne_of_gt (hafter y hy)]
  apply OrderedMap.entries_insert
  · rw [h.pending, List.filter_append]
    congr 1
    exact List.filter_cons_of_neg (Bool.eq_false_iff.mp hnew)
  · intro e he
    exact hbefore e (List.mem_filter.mp he).1
  · intro e he
    exact hafter e (List.mem_filter.mp he).1

/-- A missing item is inserted, or is pending. -/
theorem Settled.insertResultItem (h : store.Settled front rest done hi) (hindex : 0 ≤ index)
    (hitem : (index, item) ∈ front ++ rest) (hnew : done index = false) :
  ∃ front' rest', front ++ rest = front' ++ rest'
    ∧ (store.insertResultItem index item).2.Settled front' rest' (withIndex index done) hi
  := by
  have hrest : (index, item) ∈ rest := by
    rcases List.mem_append.mp hitem with hfront | hrest
    · exact absurd (h.front_done _ hfront) (Bool.eq_false_iff.mp hnew)
    · exact hrest
  have hmem := h.tiles.mem hrest
  have hfront : ∀ e ∈ front, withIndex index done e.1 = true := by
    intro e he
    rw [withIndex, h.front_done e he, Bool.or_true]
  unfold ResultStoreBase.insertResultItem
  split
  next hpending =>
    refine Split.syncPendingResults ?_ hfront
    refine ⟨h.mode, ⟨h.visible.tiles, h.visible.valid, h.visible.kept⟩, h.filtered_nonneg,
      h.tiles, h.insert_le, ?_⟩
    exact h.pending_insert hrest hnew
  next hnow =>
    have hle : index ≤ store.insertIndex := by
      have hmode := h.mode
      by_contra hgt
      exact hnow ⟨hmode, by omega, by omega⟩
    have hinsert := h.insert_le
    cases rest with
    | nil => cases hrest
    | cons e rest =>
      have hkey := h.tiles.1
      have hpos := h.tiles.2.1.pos
      obtain rfl : e = (index, item) := h.tiles.eq_of_overlap List.mem_cons_self hrest
        (by dsimp only; omega) (by dsimp only; omega)
      have hbehind : ∀ e' ∈ rest, index < e'.1 := by
        intro e' he'
        have hstart := (h.tiles.2.2.mem he').1
        omega
      have hpending : store.pendingResults.entries
          = rest.filter fun e => withIndex index done e.1 := by
        rw [h.pending, show ((index, item) :: rest).filter (fun e => done e.1)
          = rest.filter fun e => done e.1 from
          List.filter_cons_of_neg (Bool.eq_false_iff.mp hnew)]
        apply List.filter_congr
        intro e' he'
        rw [withIndex, decide_eq_false (Int.ne_of_gt (hbehind e' he')), Bool.false_or]
      rw [ResultStoreBase.updateInsertIndex, if_neg (by omega)]
      dsimp only
      have hnext := h.insertFirst
        { store with insertIndex := max (index + item.count) store.insertIndex }
        (ResultStoreBase.insertResultItemIfValid { store with
          insertIndex := max (index + item.count) store.insertIndex }
          (index - store.filteredResults) item).pendingResults (withIndex index done) rfl (by
            have hitem' : item.WellFormed := h.tiles.2.1
            dsimp only at hkey hpos ⊢
            rw [hitem'.count_eq]
            omega) (by
            rw [insertResultItemIfValid_pendingResults]
            exact hpending)
      obtain ⟨front', rest', heq, hsettled⟩ := hnext.syncPendingResults (by
        intro e' he'
        rcases List.mem_append.mp he' with hbefore | hnow
        · exact hfront e' hbefore
        · rw [List.mem_singleton.mp hnow, withIndex, decide_eq_true rfl, Bool.true_or])
      refine ⟨front', rest', ?_, hsettled⟩
      rw [← heq, List.append_assoc, List.singleton_append]

/-! ### Batches -/

/-- Consecutive indices, and the results at them that are kept. -/
structure Batch (T : Type) where
  kept : List T
  total : ℕ
  kept_le : kept.length ≤ total
  total_pos : 0 < total

namespace Batch

/-- The items of a batch that begins at an index. -/
def items (lo : ℤ) (b : Batch T) : List (ℤ × ResultItem T) :=
  if b.kept.length = b.total then [(lo, ⟨b.kept.length, some b.kept⟩)]
  else if b.kept = [] then [(lo, ⟨b.total, none⟩)]
  else [(lo, ⟨b.kept.length, some b.kept⟩),
    (lo + b.kept.length, ⟨b.total - b.kept.length, none⟩)]

/-- The items of batches one after the other. -/
def plan : ℤ → List (Batch T) → List (ℤ × ResultItem T)
  | _, [] => []
  | lo, b :: bs => b.items lo ++ plan (lo + b.total) bs

/-- The first index of a batch. -/
def start (bs : List (Batch T)) (i : ℕ) : ℤ :=
  ((bs.take i).map fun b => (b.total : ℤ)).sum

theorem start_cons_succ (b : Batch T) (bs : List (Batch T)) (i : ℕ) :
  start (b :: bs) (i + 1) = b.total + start bs i
  := by
  rw [start, List.take_succ_cons, List.map_cons, List.sum_cons, start]

theorem tiles_items (lo : ℤ) (b : Batch T) :
  Tiles lo (b.items lo) (lo + b.total)
  := by
  have hle := b.kept_le
  have hpos := b.total_pos
  have hkept : ∀ n : ℤ, 0 < n → n = b.kept.length →
      (⟨n, some b.kept⟩ : ResultItem T).WellFormed := by
    rintro n hn rfl
    refine ⟨hn, ?_⟩
    rintro results ⟨⟩
    rfl
  have haway : ∀ n : ℤ, 0 < n → (⟨n, none⟩ : ResultItem T).WellFormed :=
    fun n hn => ⟨hn, fun _ h => nomatch h⟩
  unfold items
  split
  next hall => exact ⟨rfl, hkept _ (by omega) rfl, by rw [hall]; rfl⟩
  next hpart =>
    split
    next hnone => exact ⟨rfl, haway _ (by omega), rfl⟩
    next hsome =>
      have hlength := List.length_pos_iff.mpr hsome
      refine ⟨rfl, hkept _ (by omega) rfl, rfl, haway _ (by omega), ?_⟩
      change lo + (b.kept.length : ℤ) + ((b.total : ℤ) - b.kept.length) = lo + b.total
      omega

theorem flatMap_items (lo : ℤ) (b : Batch T) :
  ((b.items lo).flatMap fun e => e.2.kept) = b.kept
  := by
  unfold items
  split
  next => exact List.append_nil _
  next =>
    split
    next hnone => exact hnone.symm
    next =>
      rw [List.flatMap_cons, List.flatMap_cons, List.flatMap_nil, List.append_nil]
      exact List.append_nil _

theorem flatMap_plan (lo : ℤ) (bs : List (Batch T)) :
  ((plan lo bs).flatMap fun e => e.2.kept) = bs.flatMap kept
  := by
  induction bs generalizing lo with
  | nil => rfl
  | cons b bs ih => rw [plan, List.flatMap_append, flatMap_items, ih, List.flatMap_cons]

theorem tiles_plan (lo : ℤ) (bs : List (Batch T)) :
  Tiles lo (plan lo bs) (lo + (bs.map fun b => (b.total : ℤ)).sum)
  := by
  induction bs generalizing lo with
  | nil => exact (Int.add_zero lo).symm
  | cons b bs ih =>
    rw [plan, tiles_append, List.map_cons, List.sum_cons]
    refine ⟨lo + b.total, b.tiles_items lo, ?_⟩
    have hbs := ih (lo + b.total)
    rw [Int.add_assoc] at hbs
    exact hbs

/-- The items of a batch among those of all batches. -/
theorem plan_split (lo : ℤ) {bs : List (Batch T)} {i : ℕ} {b : Batch T} (h : bs[i]? = some b) :
  ∃ before after, plan lo bs = before ++ (b.items (lo + start bs i) ++ after)
    ∧ Tiles lo before (lo + start bs i)
    ∧ ∃ hi, Tiles (lo + start bs i + b.total) after hi
  := by
  induction bs generalizing lo i with
  | nil => cases h
  | cons c bs ih =>
    cases i with
    | zero =>
      obtain rfl : c = b := Option.some.inj h
      have hzero : lo + start (c :: bs) 0 = lo := Int.add_zero lo
      rw [hzero]
      exact ⟨[], plan (lo + c.total) bs, rfl, rfl, _, tiles_plan _ bs⟩
    | succ i =>
      have hstart : lo + start (c :: bs) (i + 1) = lo + c.total + start bs i := by
        rw [start_cons_succ, Int.add_assoc]
      obtain ⟨before, after, hplan, hbefore, hafter⟩ := ih (lo + c.total) (i := i) h
      rw [hstart]
      refine ⟨c.items lo ++ before, after, ?_, ?_, hafter⟩
      · rw [plan, hplan, List.append_assoc]
      · exact tiles_append.mpr ⟨_, c.tiles_items lo, hbefore⟩

theorem mem_items (lo : ℤ) (b : Batch T) :
  ∃ item, (lo, item) ∈ b.items lo
  := by
  unfold items
  split
  · exact ⟨_, List.mem_cons_self⟩
  · split
    · exact ⟨_, List.mem_cons_self⟩
    · exact ⟨_, List.mem_cons_self⟩

end Batch

/-- A missing item is not found, in the results or in those that are pending. -/
theorem Settled.not_containsValidResultItem (h : store.Settled front rest done hi)
    (hitem : (index, item) ∈ front ++ rest) (hnew : done index = false) :
  store.containsValidResultItem index = false
  := by
  have hrest : (index, item) ∈ rest := by
    rcases List.mem_append.mp hitem with hfront | hrest
    · exact absurd (h.front_done _ hfront) (Bool.eq_false_iff.mp hnew)
    · exact hrest
  have hnone : findResult (if (store.m_filterMode && index ≠ -1 && store.insertIndex < index)
      = true then store.pendingResults else store.m_results) index = none := by
    split
    next =>
      cases hfind : findResult store.pendingResults index with
      | none => rfl
      | some it =>
        obtain ⟨e, he, -, hle, hend⟩ := findResult_mem hfind
        rw [h.pending, List.mem_filter] at he
        rw [(h.tiles.mem he.1).2.2.count_eq] at hend
        obtain rfl := h.tiles.eq_of_overlap he.1 hrest hle hend
        exact absurd he.2 (Bool.eq_false_iff.mp hnew)
    next hvisible =>
      simp only [h.mode, Bool.true_and, Bool.and_eq_true, decide_eq_true_eq] at hvisible
      apply h.visible.findResult_eq_none
      have hstart := (h.tiles.mem hrest).1
      have hnonneg := h.filtered_nonneg
      dsimp only at hstart
      omega
  unfold containsValidResultItem
  dsimp only
  rw [hnone]

/-- The indices that are done after a batch is reported. -/
def withBatch (lo : ℤ) (b : Batch T) (done : ℤ → Bool) (k : ℤ) : Bool :=
  (b.items lo).any (fun e => e.1 = k) || done k

/-- A batch whose items are missing is reported. -/
theorem Settled.addResults (h : store.Settled front rest done hi) {lo : ℤ} (hlo : 0 ≤ lo)
    {b : Batch T} (hitems : ∀ e ∈ b.items lo, e ∈ front ++ rest ∧ done e.1 = false) :
  ∃ front' rest', front ++ rest = front' ++ rest'
    ∧ (store.addResults lo b.kept b.total).2.Settled front' rest' (withBatch lo b done) hi
  := by
  have hpos := b.total_pos
  obtain ⟨item, hitem⟩ := b.mem_items lo
  have hcontains := h.not_containsValidResultItem (hitems _ hitem).1 (hitems _ hitem).2
  have hsome : ¬ ((store.m_filterMode = false ∨ (b.kept.length : ℤ) = b.total) ∧ b.kept = []) := by
    rintro ⟨hor, hnil⟩
    rw [hnil, List.length_nil] at hor
    rcases hor with hmode | hzero
    · exact absurd h.mode (Bool.eq_false_iff.mp hmode)
    · omega
  unfold ResultStoreBase.addResults
  rw [if_neg hsome, hcontains, if_neg Bool.false_ne_true]
  unfold withBatch
  unfold Batch.items at hitems ⊢
  by_cases hall : b.kept.length = b.total
  · rw [if_pos hall] at hitems ⊢
    rw [if_neg (by omega), insertResults, if_pos (Or.inr (by omega))]
    obtain ⟨hmem, hnew⟩ := hitems _ List.mem_cons_self
    have hdone : (fun k => List.any [(lo, (⟨b.kept.length, some b.kept⟩ : ResultItem T))]
        (fun e => decide (e.1 = k)) || done k) = withIndex lo done := by
      funext k
      rw [withIndex, List.any_cons, List.any_nil, Bool.or_false]
      congr 1
      exact decide_eq_decide.mpr eq_comm
    rw [hdone]
    exact h.insertResultItem hlo hmem hnew
  · rw [if_neg hall] at hitems ⊢
    by_cases hnil : b.kept = []
    · rw [if_pos hnil] at hitems ⊢
      obtain ⟨hmem, hnew⟩ := hitems _ List.mem_cons_self
      have hdone : (fun k => List.any [(lo, (⟨b.total, none⟩ : ResultItem T))]
          (fun e => decide (e.1 = k)) || done k) = withIndex lo done := by
        funext k
        rw [withIndex, List.any_cons, List.any_nil, Bool.or_false]
        congr 1
        exact decide_eq_decide.mpr eq_comm
      rw [hdone, if_pos ⟨h.mode, by omega, hnil⟩, insertResults,
        if_neg (by rw [h.mode]; simp; omega), if_neg (Int.lt_irrefl 0), Int.add_zero, Int.sub_zero]
      exact h.insertResultItem hlo hmem hnew
    · rw [if_neg hnil] at hitems ⊢
      have hlength := List.length_pos_iff.mpr hnil
      obtain ⟨hmem, hnew⟩ := hitems _ List.mem_cons_self
      obtain ⟨hmem', hnew'⟩ := hitems _ (List.mem_cons_of_mem _ List.mem_cons_self)
      have hdone : (fun k => List.any [(lo, (⟨b.kept.length, some b.kept⟩ : ResultItem T)),
          (lo + b.kept.length, ⟨b.total - b.kept.length, none⟩)] (fun e => decide (e.1 = k))
          || done k) = withIndex (lo + b.kept.length) (withIndex lo done) := by
        funext k
        simp only [withIndex, List.any_cons, List.any_nil, Bool.or_false, eq_comm (b := k)]
        rw [Bool.or_comm (decide (k = lo)), Bool.or_assoc]
      rw [hdone, if_neg (by simp [hnil]), insertResults, if_neg (by rw [h.mode]; simp; omega),
        if_pos (by omega)]
      obtain ⟨front', rest', heq, hfirst⟩ := h.insertResultItem hlo hmem hnew
      obtain ⟨front'', rest'', heq', hsecond⟩ := hfirst.insertResultItem
        (show 0 ≤ lo + (b.kept.length : ℤ) by omega) (heq ▸ hmem') (by
          dsimp only at hnew'
          rw [withIndex, hnew', Bool.or_false, decide_eq_false_iff_not]
          omega)
      exact ⟨front'', rest'', heq.trans heq', hsecond⟩

/-! ### Reporting all batches -/

/-- The results of a batch are reported. -/
def report (bs : List (Batch T)) (store : ResultStoreBase T) (i : ℕ) : ResultStoreBase T :=
  match bs[i]? with
  | some b => (store.addResults (Batch.start bs i) b.kept b.total).2
  | none => store

/-- The store in filter mode after the batches are reported in an order. -/
def reportAll (bs : List (Batch T)) (order : List ℕ) : ResultStoreBase T :=
  order.foldl (report bs) (new.setFilterMode true)

/-- The indices of the items of batches. -/
def reported (bs : List (Batch T)) (order : List ℕ) (k : ℤ) : Bool :=
  order.any fun i => match bs[i]? with
    | some b => (b.items (Batch.start bs i)).any fun e => e.1 = k
    | none => false

variable {bs : List (Batch T)}

theorem reported_append_singleton {i : ℕ} {b : Batch T} (hb : bs[i]? = some b) (order : List ℕ) :
  reported bs (order ++ [i]) = withBatch (Batch.start bs i) b (reported bs order)
  := by
  funext k
  rw [reported, List.any_append, List.any_cons, List.any_nil, Bool.or_false, withBatch,
    Bool.or_comm, hb]
  rfl

namespace Batch

theorem start_nonneg (bs : List (Batch T)) (i : ℕ) :
  0 ≤ start bs i
  := by
  induction bs generalizing i with
  | nil =>
    rw [start, List.take_nil]
    exact Int.le_refl 0
  | cons b bs ih =>
    cases i with
    | zero => exact Int.le_refl 0
    | succ i =>
      have hbs := ih i
      rw [start_cons_succ]
      omega

/-- An item is one of a batch. -/
theorem mem_plan {lo : ℤ} {bs : List (Batch T)} {e : ℤ × ResultItem T} (h : e ∈ plan lo bs) :
  ∃ (i : ℕ) (b : Batch T), bs[i]? = some b ∧ e ∈ b.items (lo + start bs i)
  := by
  induction bs generalizing lo with
  | nil => cases h
  | cons b bs ih =>
    rcases List.mem_append.mp h with hfirst | hlater
    · refine ⟨0, b, rfl, ?_⟩
      rw [show start (b :: bs) 0 = 0 from rfl, Int.add_zero]
      exact hfirst
    · obtain ⟨i, c, hc, he⟩ := ih hlater
      refine ⟨i + 1, c, hc, ?_⟩
      rw [start_cons_succ, ← Int.add_assoc]
      exact he

theorem start_add_le {bs : List (Batch T)} {i j : ℕ} {b : Batch T} (hb : bs[i]? = some b)
    (h : i < j) :
  start bs i + b.total ≤ start bs j
  := by
  induction bs generalizing i j with
  | nil => cases hb
  | cons c bs ih =>
    obtain ⟨j, rfl⟩ : ∃ k, j = k + 1 := ⟨j - 1, by omega⟩
    rw [start_cons_succ]
    cases i with
    | zero =>
      obtain rfl : c = b := Option.some.inj hb
      have hj := start_nonneg bs j
      rw [show start (c :: bs) 0 = 0 from rfl]
      omega
    | succ i =>
      have hij := ih (i := i) (j := j) hb (by omega)
      rw [start_cons_succ]
      omega

end Batch

/-- A batch is not among others that are reported. -/
theorem not_reported {i : ℕ} {b : Batch T} (hb : bs[i]? = some b) {order : List ℕ}
    (hi : i ∉ order) {e : ℤ × ResultItem T} (he : e ∈ b.items (Batch.start bs i)) :
  reported bs order e.1 = false
  := by
  rw [reported, List.any_eq_false]
  intro j hj
  cases hc : bs[j]? with
  | none => exact Bool.false_ne_true
  | some c =>
    dsimp only
    rw [List.any_eq_true]
    rintro ⟨e', he', hkey⟩
    rw [decide_eq_true_eq] at hkey
    have hrange := (b.tiles_items (Batch.start bs i)).mem he
    have hrange' := (c.tiles_items (Batch.start bs j)).mem he'
    have hpos := hrange.2.2.pos
    have hpos' := hrange'.2.2.pos
    rcases Nat.lt_trichotomy i j with hlt | rfl | hgt
    · have hle := Batch.start_add_le hb hlt
      omega
    · exact hi hj
    · have hle := Batch.start_add_le hc hgt
      omega

theorem settled_new (bs : List (Batch T)) :
  ((new : ResultStoreBase T).setFilterMode true).Settled [] (Batch.plan 0 bs) (reported bs [])
    (0 + (bs.map fun b => (b.total : ℤ)).sum)
  := by
  refine ⟨⟨rfl, ⟨visible_new.tiles, visible_new.valid, visible_new.kept⟩, Int.le_refl 0,
    Batch.tiles_plan 0 bs, Int.le_refl 0, ?_⟩, ?_, ?_⟩
  · exact (List.filter_eq_nil_iff.mpr fun _ _ => Bool.false_ne_true).symm
  · intro e he
    cases he
  · intro e _
    rfl

/-- Batches that are reported in any order. -/
theorem Settled.reportAll (h : store.Settled front rest done hi)
    (hplan : Batch.plan 0 bs = front ++ rest) (before : List ℕ) {order : List ℕ}
    (hdone : done = reported bs before) (hnodup : (before ++ order).Nodup)
    (horder : ∀ i ∈ order, i < bs.length) :
  ∃ front' rest', Batch.plan 0 bs = front' ++ rest'
    ∧ (order.foldl (report bs) store).Settled front' rest' (reported bs (before ++ order)) hi
  := by
  induction order generalizing store front rest before done with
  | nil =>
    rw [List.append_nil, ← hdone]
    exact ⟨front, rest, hplan, h⟩
  | cons i order ih =>
    obtain ⟨b, hb⟩ : ∃ b, bs[i]? = some b :=
      ⟨_, List.getElem?_eq_getElem (horder i List.mem_cons_self)⟩
    have h_i : i ∉ before := by
      intro hmem
      exact (List.nodup_append.mp hnodup).2.2 i hmem i List.mem_cons_self rfl
    have hstep : ∃ front' rest', front ++ rest = front' ++ rest'
        ∧ (report bs store i).Settled front' rest'
          (withBatch (Batch.start bs i) b done) hi := by
      rw [report, hb]
      apply h.addResults
      · exact Batch.start_nonneg bs i
      · intro e he
        refine ⟨?_, ?_⟩
        · obtain ⟨xs, ys, hsplit, -⟩ := Batch.plan_split 0 hb
          rw [← hplan, hsplit, Int.zero_add]
          exact List.mem_append_right _ (List.mem_append_left _ he)
        · rw [hdone]
          exact not_reported hb h_i he
    obtain ⟨front', rest', heq, hsettled⟩ := hstep
    have happend : before ++ i :: order = before ++ [i] ++ order := by
      rw [List.append_assoc, List.singleton_append]
    rw [happend] at hnodup ⊢
    exact ih hsettled (hplan.trans heq) (before ++ [i])
      (by rw [hdone, reported_append_singleton hb]) hnodup
      fun j hj => horder j (List.mem_cons_of_mem _ hj)

/-- The results that are counted, and the ones at their indices. -/
def Shows (store : ResultStoreBase T) (results : List T) : Prop :=
  store.count = results.length
    ∧ ∀ i : ℕ, (store.resultAt i).bind (fun it => it.value) = results[i]?

theorem Visible.shows (h : store.Visible results) :
  store.Shows results
  := ⟨h.count, h.value⟩

/-- In whatever order the batches are reported, the visible results are at every moment the first
ones of those that are kept, and in the end they are all of them. -/
theorem reportAll_inOrder (bs : List (Batch T)) {order : List ℕ}
    (h : order.Perm (List.range bs.length)) :
  (∀ n, ∃ results, results <+: bs.flatMap Batch.kept ∧ (reportAll bs (order.take n)).Shows results)
    ∧ (reportAll bs order).Shows (bs.flatMap Batch.kept)
    ∧ (reportAll bs order).pendingResults.isEmpty = true
  := by
  have h_run : ∀ n, ∃ front rest, Batch.plan 0 bs = front ++ rest
      ∧ (reportAll bs (order.take n)).Settled front rest (reported bs (order.take n))
        (0 + (bs.map fun b => (b.total : ℤ)).sum) := by
    intro n
    refine (settled_new bs).reportAll rfl [] rfl ?_ ?_
    · exact (h.nodup_iff.mpr List.nodup_range).take
    · intro i h_i
      exact List.mem_range.mp (h.mem_iff.mp (List.mem_of_mem_take h_i))
  constructor
  · intro n
    obtain ⟨front, rest, h_plan, h_settled⟩ := h_run n
    refine ⟨_, ?_, h_settled.visible.shows⟩
    rw [← Batch.flatMap_plan 0, h_plan, List.flatMap_append]
    exact List.prefix_append _ _
  · obtain ⟨front, rest, h_plan, h_settled⟩ := h_run order.length
    rw [List.take_length] at h_settled
    have h_rest : rest = [] := by
      cases rest with
      | nil => rfl
      | cons e rest =>
        have h_missing := h_settled.first_missing e rfl
        obtain ⟨i, b, h_b, h_e⟩ := Batch.mem_plan
          (h_plan ▸ List.mem_append_right front List.mem_cons_self)
        rw [Int.zero_add] at h_e
        have h_i : i ∈ order := by
          rw [h.mem_iff, List.mem_range]
          exact (List.getElem?_eq_some_iff.mp h_b).1
        have h_false := List.any_eq_false.mp h_missing i h_i
        rw [h_b] at h_false
        exact absurd (List.any_eq_true.mpr ⟨e, h_e, decide_eq_true rfl⟩) h_false
    subst h_rest
    rw [List.append_nil] at h_plan
    rw [← Batch.flatMap_plan 0, h_plan]
    refine ⟨h_settled.visible.shows, ?_⟩
    rw [OrderedMap.isEmpty, h_settled.pending]
    rfl

/-- The second of two batches is reported first. -/
theorem reportAll_inOrder_swapped :
  (reportAll [⟨[1, 2], 3, by decide, by decide⟩, ⟨[3], 1, by decide, by decide⟩] [1, 0]).Shows
      [1, 2, 3]
    ∧ (reportAll [⟨[1, 2], 3, by decide, by decide⟩, ⟨[3], 1, by decide, by decide⟩]
      [1, 0]).pendingResults.isEmpty = true
  := (reportAll_inOrder [⟨[1, 2], 3, by decide, by decide⟩, ⟨[3], 1, by decide, by decide⟩]
    (show [1, 0].Perm (List.range 2) from List.Perm.swap 0 1 [])).2

end ResultStoreBase
