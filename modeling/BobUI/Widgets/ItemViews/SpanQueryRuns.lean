import BobUI.Widgets.ItemViews.SpanQueries
import BobUI.Widgets.ItemViews.SpanRuns

/-!
# Queries in the runs of a span collection

Every call keeps the rows of the index occupied, but the removal of rows if the row behind them is
in the index and only spans cross it that the removal makes a single cell: then an empty row is left
for the first removed one.  In a run without such a removal, and in which no span is left behind,
`spansInRect` answers in every state.
-/

namespace QSpanCollection

/-! ### Calls keep the rows occupied -/

variable {heap : SpanId → Span} {index : Index}

theorem occupied_insertSpan (h : Occupied index) {keys : List ℤ} (hsorted : keys.Pairwise (· > ·))
    (span : SpanId) :
  Occupied (insertSpan heap span keys index)
  := by
  intro k subIndex hget
  rw [get?_insertSpan hsorted] at hget
  split at hget
  next =>
    obtain ⟨sub, -, rfl⟩ := Option.map_eq_some_iff.mp hget
    use -(heap span).left, span
    rw [OrderedMap.get?_insert, if_pos rfl]
  next => exact h k subIndex hget

variable {c : QSpanCollection} {spans : List SpanId}

theorem occupied_addSpan (h : Occupied c.index) {span : SpanId}
    (hheight : (c.heap span).top ≤ (c.heap span).bottom) :
  Occupied (c.addSpan span).index
  := by
  rw [addSpan_index]
  intro k subIndex hget
  have hsorted := (startedIndex c span).sorted_keysDown (-(c.heap span).top)
  rw [get?_insertSpan hsorted] at hget
  split at hget
  next =>
    obtain ⟨sub, -, rfl⟩ := Option.map_eq_some_iff.mp hget
    use -(c.heap span).left, span
    rw [OrderedMap.get?_insert, if_pos rfl]
  next hother =>
    -- The row of the span is not such a row.
    have hne : k ≠ -(c.heap span).top := by
      rintro rfl
      apply hother
      use OrderedMap.mem_keysDown.mpr ⟨OrderedMap.mem_keys_iff.mpr ⟨subIndex, hget⟩, le_refl _⟩
      omega
    apply h k subIndex
    unfold startedIndex at hget
    split at hget
    next => rwa [OrderedMap.get?_insert, if_neg hne] at hget
    next =>
      split at hget
      next => rwa [OrderedMap.get?_insert, if_neg hne] at hget
      next => exact hget

theorem occupied_updateSpan (h : Occupied c.index) (span : SpanId) (oldHeight : ℤ) :
  Occupied (c.updateSpan span oldHeight).index
  := by
  unfold updateSpan
  dsimp only
  split_ifs with hgrow hshrink
  · cases hk : c.index.lowerBound (-((c.heap span).top + oldHeight - 1)) with
    | none => exact h
    | some k => exact occupied_insertSpan h (c.index.sorted_keysDown k) span
  · cases hk : c.index.lowerBound (-max (c.heap span).bottom (c.heap span).top) with
    | none => exact h
    | some k =>
      intro l subIndex hget
      dsimp only at hget
      rw [get?_removeSpan (c.index.sorted_keysDown k)] at hget
      split at hget
      next =>
        split at hget
        next => cases hget
        next hsome =>
          rw [Option.some_inj] at hget
          rw [hget, OrderedMap.isEmpty_iff] at hsome
          push Not at hsome
          obtain ⟨m, hm⟩ := hsome
          exact ⟨m, Option.ne_none_iff_exists'.mp hm⟩
      next => exact h l subIndex hget
  · exact h

theorem occupied_setSpan (h : Occupied c.index) (row column rowSpan columnSpan : ℤ) :
  Occupied (c.setSpan row column rowSpan columnSpan).index
  := by
  unfold setSpan
  by_cases hguard : row < 0 ∨ column < 0 ∨ rowSpan ≤ 0 ∨ columnSpan ≤ 0
  · rw [if_pos hguard]
    exact h
  rw [if_neg hguard]
  cases c.spanAt column row with
  | some sp =>
    dsimp only
    by_cases hstart : (c.heap sp).top ≠ row ∨ (c.heap sp).left ≠ column
    · rw [if_pos hstart]
      exact h
    · rw [if_neg hstart]
      apply occupied_updateSpan
      exact h
  | none =>
    dsimp only
    by_cases hone : rowSpan = 1 ∧ columnSpan = 1
    · rw [if_pos hone]
      exact h
    · rw [if_neg hone]
      apply occupied_addSpan
      · exact h
      · rw [heap_append_length]
        change row ≤ row + rowSpan - 1
        omega

variable {start delta : ℤ}

theorem occupied_insertedRows (h : Occupied index) (hdelta : 0 < delta) :
  Occupied (shiftKeys start delta index.keys index)
  := by
  intro k subIndex hget
  rw [get?_shiftKeys_keys hdelta] at hget
  split at hget
  next => exact h _ subIndex hget
  next =>
    split at hget
    next => cases hget
    next => exact h k subIndex hget

theorem occupied_insertedColumns (h : Occupied index) (hdelta : 0 < delta) :
  Occupied (index.mapValues fun _ subIndex => shiftKeys start delta subIndex.keys subIndex)
  := by
  intro k subIndex hget
  rw [OrderedMap.get?_mapValues] at hget
  obtain ⟨sub, hsub, rfl⟩ := Option.map_eq_some_iff.mp hget
  obtain ⟨l, a, ha⟩ := h k sub hsub
  by_cases hl : start ≤ -l
  · use l - delta, a
    rw [get?_shiftKeys_keys hdelta, if_pos (by omega), Int.sub_add_cancel]
    exact ha
  · use l, a
    rw [get?_shiftKeys_keys hdelta, if_neg (by omega), if_neg hl]
    exact ha

theorem occupied_empty :
  Occupied .empty
  := fun _ _ hget => nomatch hget

/-- Where a span starts, there is one. -/
theorem exists_of_filed {row : ℤ} {subIndex : SubIndex} (hsep : Separate heap spans)
    (hfiled : Filed heap spans row subIndex) (h : ¬ ∀ a ∈ spans, (heap a).top ≠ row) :
  ∃ l a, subIndex.get? l = some a
  := by
  push Not at h
  obtain ⟨a, ha, htop⟩ := h
  have hheight : (heap a).top ≤ (heap a).bottom := (hsep.nonempty a ha).1
  use -(heap a).left, a
  rw [hfiled]
  use ha, rfl
  omega

/-- A row that has been cleaned is not empty. -/
theorem exists_of_cleanedRow {heap' : SpanId → Span} {spans' : List SpanId} {row : ℤ}
    (h : Removal heap heap' spans spans')
    (hrows : ∀ a ∈ spans', Crosses heap row a ↔ Crosses heap' row a) {update : Bool}
    (hupdate : update = false → ∀ a ∈ spans', (heap' a).left = (heap a).left)
    {subIndex subIndex' : SubIndex} (hfiled : Filed heap spans row subIndex)
    (hclean : cleanedRow heap' row update subIndex = some subIndex') :
  ∃ l a, subIndex'.get? l = some a
  := by
  obtain ⟨hnew, hdeleted⟩ := filed_cleanSpanSubIndex h hrows update hupdate hfiled
  rw [cleanedRow] at hclean
  split at hclean
  next => cases hclean
  next hkept =>
    cases hclean
    apply exists_of_filed h.after hnew
    rw [← hdeleted]
    exact hkept

theorem Indexed.occupied_cleanRows {heap' : SpanId → Span} {spans' : List SpanId}
    (hindex : Indexed heap spans index) (h : Removal heap heap' spans spans')
    (hrows : ∀ a ∈ spans', (heap' a).top = (heap a).top ∧ (heap' a).bottom = (heap a).bottom) :
  Occupied (QSpanCollection.cleanRows heap' index.keys index)
  := by
  intro k subIndex hget
  rw [get?_cleanRows index.nodup_keys] at hget
  split at hget
  next hkey =>
    obtain ⟨sub, hsub⟩ := OrderedMap.mem_keys_iff.mp hkey
    rw [hsub, Option.getD_some] at hget
    apply exists_of_cleanedRow h _ _ (hindex.filed k sub hsub) hget
    · intro a ha
      rw [Crosses, Crosses, (hrows a ha).1, (hrows a ha).2]
    · rintro ⟨⟩
  next hkey =>
    rw [OrderedMap.get?_eq_none_iff.mpr hkey] at hget
    cases hget

/-! ### Removing rows -/

section Loop

variable {heap' : SpanId → Span} {spans spans' : List SpanId} {stop : ℤ} {index₀ : Index}

theorem exists_insertAll (subIndex : SubIndex) {moved : SubIndex}
    (h : ∃ l a, moved.get? l = some a) :
  ∃ l a, (insertAll subIndex moved).get? l = some a
  := by
  obtain ⟨l, a, ha⟩ := h
  use l, a
  rw [get?_insertAll]
  exact .inl ha

theorem exists_spansToBeMoved {subIndex : SubIndex}
    (h : spanAtStart heap start subIndex = true) :
  ∃ l a, (spansToBeMoved heap subIndex).get? l = some a
  := by
  rw [spanAtStart, List.any_eq_true] at h
  obtain ⟨⟨l, a⟩, hmem, hboth⟩ := h
  rw [Bool.and_eq_true, Bool.not_eq_true'] at hboth
  use l, a
  rw [get?_spansToBeMoved]
  exact ⟨OrderedMap.get?_eq_some_iff.mpr hmem, hboth.1⟩

theorem occupied_moveRow (h : Occupied index) (t : ℤ) :
  Occupied (moveRow heap start (-t) index)
  := by
  intro k subIndex hget
  rw [get?_moveRow] at hget
  split at hget
  next hstart =>
    cases hget
    apply exists_insertAll
    apply exists_spansToBeMoved hstart.1
  next =>
    split at hget
    next => cases hget
    next => exact h k subIndex hget

/-- One turn of the loop, where a span of the row behind the removed ones is left. -/
theorem occupied_removeRow (h : RowRemoval heap heap' spans spans' start stop)
    (hindex : Indexed heap spans index₀) {t : ℤ} (hoccupied : Occupied index)
    {subIndex₀ : SubIndex} (hget₀ : index₀.get? (-t) = some subIndex₀)
    (hnow : index.get? (-t) = some subIndex₀)
    (hnext : t = stop + 1 → ∃ a ∈ spans', Crosses heap (stop + 1) a) :
  Occupied (removeRow heap' start stop (-t) index)
  := by
  have hfiled := hindex.filed (-t) subIndex₀ hget₀
  rw [Int.neg_neg] at hfiled
  by_cases hbefore : t < start
  · intro k subIndex hget
    rw [removeRow_before hbefore] at hget
    split at hget
    next =>
      rw [hnow, Option.getD_some] at hget
      apply exists_of_cleanedRow h.toRemoval _ (fun _ => h.columns) hfiled hget
      intro a ha
      rw [h.crosses ha, if_pos hbefore]
    next => exact hoccupied k subIndex hget
  · by_cases hinside : t ≤ stop
    · rw [removeRow_inside (by omega) hinside]
      split_ifs
      · exact occupied_moveRow (occupied_moveRow hoccupied t) start
      · exact occupied_moveRow hoccupied t
    · intro k subIndex hget
      by_cases hlast : t = stop + 1
      · subst hlast
        rw [removeRow_next h.le] at hget
        split at hget
        next => cases hget
        next =>
          split at hget
          next =>
            cases hget
            apply exists_insertAll
            obtain ⟨a, ha, hcrosses⟩ := hnext rfl
            use -(heap' a).left, a
            rw [hnow, Option.getD_some, h.moved hfiled]
            exact ⟨ha, rfl, hcrosses⟩
          next => exact hoccupied k subIndex hget
      · rw [removeRow_after h.le (by omega)] at hget
        split at hget
        next => cases hget
        next =>
          split at hget
          next =>
            rw [hnow, Option.getD_some, Option.some_inj] at hget
            rw [← hget]
            exact hoccupied (-t) subIndex₀ hnow
          next => exact hoccupied k subIndex hget

/-- The rows that are still to come are as they were. -/
theorem get?_removeRow_later {t k : ℤ} (hle : start ≤ stop) (hk : k < -t) :
  (removeRow heap start stop (-t) index).get? k = index.get? k
  := by
  by_cases hbefore : t < start
  · rw [removeRow_before hbefore, if_neg (by omega)]
  · have hmove : ∀ {index : Index} {t' : ℤ}, start ≤ t' → t' ≤ t →
        (moveRow heap start (-t') index).get? k = index.get? k := by
      intro index t' hstart ht'
      rw [get?_moveRow, if_neg (fun hboth => by omega), if_neg (by omega)]
    by_cases hinside : t ≤ stop
    · rw [removeRow_inside (by omega) hinside]
      split_ifs
      · rw [hmove (le_refl start) (by omega), hmove (by omega) (le_refl t)]
      · exact hmove (by omega) (le_refl t)
    · by_cases hlast : t = stop + 1
      · subst hlast
        rw [removeRow_next hle, if_neg (by omega), if_neg (by omega)]
      · rw [removeRow_after hle (by omega), if_neg (by omega), if_neg (by omega)]

/-- The loop keeps the rows occupied. -/
theorem occupied_removeRows (h : RowRemoval heap heap' spans spans' start stop)
    (hindex : Indexed heap spans index₀)
    (hnext : -(stop + 1) ∈ index₀.keys → ∃ a ∈ spans', Crosses heap (stop + 1) a)
    {keys : List ℤ} (hsorted : keys.Pairwise (· > ·)) (hkeys : ∀ k ∈ keys, k ∈ index₀.keys)
    (hlater : ∀ k ∈ keys, index.get? k = index₀.get? k) (hoccupied : Occupied index) :
  Occupied (removeRows heap' start stop keys index)
  := by
  induction keys generalizing index with
  | nil => exact hoccupied
  | cons k keys ih =>
    rw [List.pairwise_cons] at hsorted
    rw [List.forall_mem_cons] at hkeys hlater
    obtain ⟨subIndex₀, hget₀⟩ := OrderedMap.mem_keys_iff.mp hkeys.1
    obtain ⟨t, rfl⟩ : ∃ t, k = -t := ⟨-k, (Int.neg_neg k).symm⟩
    rw [removeRows]
    apply ih hsorted.2 hkeys.2
    · intro l hl
      rw [get?_removeRow_later h.le (hsorted.1 l hl), hlater.2 l hl]
    · apply occupied_removeRow h hindex hoccupied hget₀ (hlater.1.trans hget₀)
      rintro rfl
      exact hnext hkeys.1

end Loop

/-! ### Runs -/

/-- The row behind the rows that are removed stays occupied: if it is in the index, a span that
crosses it is left, unless none is left at all. -/
def NoRowEmptied (c : QSpanCollection) : Call → Prop
  | .removedRows start stop =>
    -(stop + 1) ∈ c.index.keys →
      (∃ a ∈ c.spans, Table.Kept ((c.heap a).rect.removeRows start stop)) →
      ∃ a ∈ c.spans, Table.Kept ((c.heap a).rect.removeRows start stop) ∧
        Crosses c.heap (stop + 1) a
  | _ => True

/-- Every call keeps the rows occupied that does not empty one. -/
theorem WellFormed.occupied_step (h : c.WellFormed) (hoccupied : Occupied c.index) {call : Call}
    (hvalid : c.table.Valid call) (hbehind : c.table.NothingLeftBehind call)
    (hemptied : c.NoRowEmptied call) :
  Occupied (c.step call).index
  := by
  cases call with
  | setSpan row column rowSpan columnSpan =>
    exact occupied_setSpan hoccupied row column rowSpan columnSpan
  | insertedRows start stop =>
    change start ≤ stop at hvalid
    change Occupied (c.updateInsertedRows start stop).index
    unfold QSpanCollection.updateInsertedRows
    split_ifs
    · exact hoccupied
    · exact occupied_insertedRows hoccupied (by omega)
  | insertedColumns start stop =>
    change start ≤ stop at hvalid
    change Occupied (c.updateInsertedColumns start stop).index
    unfold QSpanCollection.updateInsertedColumns
    split_ifs
    · exact hoccupied
    · exact occupied_insertedColumns hoccupied (by omega)
  | removedRows start stop =>
    change start ≤ stop at hvalid
    have hremoval := h.rowRemoval hvalid hbehind
    have hmem := fun a => mem_keptSpans h (changes_removedRows h hvalid) (a := a)
    change Occupied (c.updateRemovedRows start stop).index
    unfold QSpanCollection.updateRemovedRows
    split_ifs with hnone
    · exact hoccupied
    · dsimp only
      split_ifs with hall
      · exact occupied_empty
      · apply occupied_removeRows hremoval h.indexed _
          (List.pairwise_reverse.mpr c.index.sorted_keys)
          (fun k hk => List.mem_reverse.mp hk) (fun _ _ => rfl) hoccupied
        intro hkey
        obtain ⟨b, hb⟩ := List.exists_mem_of_ne_nil _
          (List.isEmpty_eq_false_iff.mp (Bool.not_eq_true _ ▸ hall))
        obtain ⟨a, ha, hkept, hcrosses⟩ := hemptied hkey
          ⟨b, ((hmem b).mp hb).1, ((hmem b).mp hb).2⟩
        exact ⟨a, (hmem a).mpr ⟨ha, hkept⟩, hcrosses⟩
  | removedColumns start stop =>
    change start ≤ stop at hvalid
    obtain ⟨hremoval, hrows⟩ := h.columnRemoval hvalid
    change Occupied (c.updateRemovedColumns start stop).index
    unfold QSpanCollection.updateRemovedColumns
    split_ifs with hnone
    · exact hoccupied
    · dsimp only
      split_ifs
      · exact occupied_empty
      · exact h.indexed.occupied_cleanRows hremoval hrows

/-- Every call is made in a state in which it may be. -/
def Along (P : QSpanCollection → Call → Prop) : QSpanCollection → List Call → Prop
  | _, [] => True
  | c, call :: calls => P c call ∧ Along P (c.step call) calls

/-- The calls that do no harm: no span is left behind, and no row is emptied. -/
def Harmless (c : QSpanCollection) (call : Call) : Prop :=
  c.table.Valid call ∧ c.table.NothingLeftBehind call ∧ c.NoRowEmptied call

theorem WellFormed.occupied_run (h : c.WellFormed) (hoccupied : Occupied c.index)
    {calls : List Call} (hcalls : c.Along Harmless calls) :
  (c.run calls).WellFormed ∧ Occupied (c.run calls).index
  := by
  induction calls generalizing c with
  | nil => exact ⟨h, hoccupied⟩
  | cons call calls ih =>
    obtain ⟨⟨hvalid, hbehind, hemptied⟩, hrest⟩ := hcalls
    exact ih (h.step hvalid hbehind).1 (h.occupied_step hoccupied hvalid hbehind hemptied)
      hrest

/-- The rectangle of a query. -/
def queried (x y w h : ℤ) : Rect where
  rows := ⟨y, y + h - 1⟩
  columns := ⟨x, x + w - 1⟩

/-- The spans that meet the rectangle are found if and only if none begins right behind it. -/
theorem enlarged_iff (hsep : Separate c.heap c.spans) {x y w h : ℤ} (hw : 0 < w) (hh : 0 < h) :
  (∀ a ∈ c.spans, (c.heap a).rect.Overlaps (enlarged x y w h)
      ↔ (c.heap a).rect.Overlaps (queried x y w h))
    ↔ ∀ a ∈ c.spans, (c.heap a).rect.Overlaps (enlarged x y w h) →
      (c.heap a).top ≠ y + h ∧ (c.heap a).left ≠ x + w
  := by
  have henlarged : (enlarged x y w h).Nonempty := by
    constructor
    · change y ≤ y + h
      omega
    · change x ≤ x + w
      omega
  have hqueried : (queried x y w h).Nonempty := by
    constructor
    · change y ≤ y + h - 1
      omega
    · change x ≤ x + w - 1
      omega
  apply forall₂_congr
  intro a ha
  rw [overlaps_iff (hsep.nonempty a ha) henlarged, overlaps_iff (hsep.nonempty a ha) hqueried]
  change (((c.heap a).top ≤ y + h ∧ y ≤ (c.heap a).bottom)
      ∧ (c.heap a).left ≤ x + w ∧ x ≤ (c.heap a).right
    ↔ ((c.heap a).top ≤ y + h - 1 ∧ y ≤ (c.heap a).bottom)
      ∧ (c.heap a).left ≤ x + w - 1 ∧ x ≤ (c.heap a).right)
    ↔ (((c.heap a).top ≤ y + h ∧ y ≤ (c.heap a).bottom)
      ∧ (c.heap a).left ≤ x + w ∧ x ≤ (c.heap a).right →
      (c.heap a).top ≠ y + h ∧ (c.heap a).left ≠ x + w)
  omega

end QSpanCollection
