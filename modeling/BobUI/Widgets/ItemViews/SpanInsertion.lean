import BobUI.Widgets.ItemViews.SpanTable

/-!
# Inserting rows and columns

The insertion of lines moves the spans behind it and stretches those that it falls into.  The
index moves with them: the rows from the first inserted one on are filed under later keys, and so
are the columns inside each row.
-/

namespace QSpanCollection

/-! ### Moving the keys -/

theorem get?_shiftKeys {V : Type} {start delta : ℤ} (hdelta : 0 < delta) {keys : List ℤ}
    (h : keys.Pairwise (· < ·)) (m : OrderedMap ℤ V) (hkeys : ∀ k ∈ keys, k ∈ m.keys) (k : ℤ) :
  (shiftKeys start delta keys m).get? k
    = if k + delta ∈ keys ∧ start ≤ -(k + delta) then m.get? (k + delta)
      else if k ∈ keys ∧ start ≤ -k then none
      else m.get? k
  := by
  induction keys generalizing m with
  | nil =>
    rw [shiftKeys, if_neg (fun hboth => List.not_mem_nil hboth.1),
      if_neg (fun hboth => List.not_mem_nil hboth.1)]
  | cons k₀ keys ih =>
    rw [List.pairwise_cons] at h
    have hrest : ∀ k ∈ keys, k ∈ m.keys := fun k hk => hkeys k (List.mem_cons_of_mem _ hk)
    rw [shiftKeys]
    by_cases hbefore : -k₀ < start
    · have hnone : ∀ l ∈ keys, ¬ start ≤ -l := by
        intro l hl
        have hlt := h.1 l hl
        omega
      have hall : ∀ l ∈ k₀ :: keys, ¬ start ≤ -l := by
        intro l hl
        rcases List.mem_cons.mp hl with rfl | hl
        · omega
        · exact hnone l hl
      rw [if_pos hbefore, ih h.2 m hrest, if_neg (fun hboth => hnone _ hboth.1 hboth.2),
        if_neg (fun hboth => hnone _ hboth.1 hboth.2),
        if_neg (fun hboth => hall _ hboth.1 hboth.2),
        if_neg (fun hboth => hall _ hboth.1 hboth.2)]
    · obtain ⟨v, hv⟩ := OrderedMap.mem_keys_iff.mp (hkeys k₀ List.mem_cons_self)
      have hget : ∀ l, ((m.insert (k₀ - delta) v).erase k₀).get? l
          = if l = k₀ then none else if l = k₀ - delta then some v else m.get? l := by
        intro l
        rw [OrderedMap.get?_erase, OrderedMap.get?_insert]
      have hlater : ∀ l ∈ keys, ((m.insert (k₀ - delta) v).erase k₀).get? l = m.get? l := by
        intro l hl
        have hlt := h.1 l hl
        rw [hget, if_neg (by omega), if_neg (by omega)]
      rw [if_neg hbefore, hv]
      dsimp only
      rw [ih h.2 _ (fun l hl => by
        rw [OrderedMap.mem_keys_iff, hlater l hl, ← OrderedMap.mem_keys_iff]
        exact hrest l hl)]
      by_cases hmoved : k + delta ∈ keys ∧ start ≤ -(k + delta)
      · rw [if_pos hmoved, if_pos ⟨List.mem_cons_of_mem _ hmoved.1, hmoved.2⟩,
          hlater _ hmoved.1]
      · rw [if_neg hmoved]
        by_cases hfirst : k + delta = k₀
        · have hnot : k ∉ keys := by
            intro hk
            have hlt := h.1 k hk
            omega
          rw [if_neg (fun hboth => hnot hboth.1), hget, if_neg (by omega), if_pos (by omega),
            if_pos ⟨hfirst ▸ List.mem_cons_self, by omega⟩, hfirst, hv]
        · have hall : ¬ (k + delta ∈ k₀ :: keys ∧ start ≤ -(k + delta)) := by
            rintro ⟨hmem, hle⟩
            exact hmoved ⟨(List.mem_cons.mp hmem).resolve_left hfirst, hle⟩
          rw [if_neg hall]
          by_cases hk : k = k₀
          · rw [hk, if_neg (fun hboth => Int.lt_irrefl _ (h.1 k₀ hboth.1)), hget,
              if_pos (Eq.refl k₀), if_pos ⟨List.mem_cons_self, by omega⟩]
          · have htarget : ¬ k = k₀ - delta := by omega
            simp only [hget, List.mem_cons, hk, htarget, if_false, false_or]

/-- The entries of a map after the insertion of lines. -/
theorem get?_shiftKeys_keys {V : Type} {start delta : ℤ} (hdelta : 0 < delta) (m : OrderedMap ℤ V)
    (k : ℤ) :
  (shiftKeys start delta m.keys m).get? k
    = if start + delta ≤ -k then m.get? (k + delta)
      else if start ≤ -k then none
      else m.get? k
  := by
  rw [get?_shiftKeys hdelta m.sorted_keys m (fun _ h => h)]
  by_cases hmoved : start + delta ≤ -k
  · have hstart : start ≤ -(k + delta) := by omega
    have hfirst : start ≤ -k := by omega
    rw [if_pos hmoved]
    by_cases hkey : k + delta ∈ m.keys
    · rw [if_pos ⟨hkey, hstart⟩]
    · rw [if_neg (fun hboth => hkey hboth.1), OrderedMap.get?_eq_none_iff.mpr hkey]
      by_cases hk : k ∈ m.keys
      · rw [if_pos ⟨hk, hfirst⟩]
      · rw [if_neg (fun hboth => hk hboth.1), OrderedMap.get?_eq_none_iff.mpr hk]
  · rw [if_neg hmoved, if_neg (fun hboth => hmoved (by omega))]
    by_cases hfirst : start ≤ -k
    · rw [if_pos hfirst]
      by_cases hk : k ∈ m.keys
      · rw [if_pos ⟨hk, hfirst⟩]
      · rw [if_neg (fun hboth => hk hboth.1), OrderedMap.get?_eq_none_iff.mpr hk]
    · rw [if_neg hfirst, if_neg (fun hboth => hfirst hboth.2)]

/-! ### The index -/

variable {heap heap' : SpanId → Span} {spans : List SpanId} {index : Index} {start delta : ℤ}

/-- The insertion of rows keeps the index. -/
theorem Indexed.insertedRows (h : Indexed heap spans index) (hdelta : 0 < delta)
    (hsep : Separate heap spans)
    (hheap : ∀ a ∈ spans, heap' a = (heap a).insertedRows start delta) :
  Indexed heap' spans (shiftKeys start delta index.keys index)
  := by
  constructor
  · intro a ha
    obtain ⟨subIndex, hget⟩ := h.starts a ha
    use subIndex
    have hnonempty : (heap a).top ≤ (heap a).bottom := (hsep.nonempty a ha).1
    rw [get?_shiftKeys_keys hdelta, hheap a ha, Span.insertedRows]
    split
    next habove =>
      rw [if_neg (by omega), if_neg (by omega)]
      exact hget
    next hbelow =>
      unfold insertedLine
      dsimp only
      split
      next hmoved =>
        rw [if_pos (by omega), show -((heap a).top + delta) + delta = -(heap a).top by omega]
        exact hget
      next hstays =>
        rw [if_neg (by omega), if_neg (by omega)]
        exact hget
  · intro k subIndex hget l a
    have hrow : ∀ row, Filed heap spans row subIndex →
        (∀ a ∈ spans, (heap a).top ≤ row ∧ row ≤ (heap a).bottom
          ↔ (heap' a).top ≤ -k ∧ -k ≤ (heap' a).bottom) →
        (subIndex.get? l = some a ↔ a ∈ spans ∧ l = -(heap' a).left ∧ (heap' a).top ≤ -k
          ∧ -k ≤ (heap' a).bottom) := by
      intro row hfiled hcrosses
      rw [hfiled l a]
      apply and_congr_right
      intro ha
      have hleft : (heap' a).left = (heap a).left := by
        rw [hheap a ha, Span.insertedRows]
        split
        · rfl
        · rfl
      rw [hleft, hcrosses a ha]
    rw [get?_shiftKeys_keys hdelta] at hget
    split at hget
    next hmoved =>
      apply hrow _ (h.filed _ subIndex hget)
      intro a ha
      rw [hheap a ha, Span.insertedRows, insertedLine]
      grind
    next hstays =>
      split at hget
      next => cases hget
      next hbefore =>
        apply hrow _ (h.filed _ subIndex hget)
        intro a ha
        rw [hheap a ha, Span.insertedRows, insertedLine]
        grind

/-- The insertion of columns keeps the index. -/
theorem Indexed.insertedColumns (h : Indexed heap spans index) (hdelta : 0 < delta)
    (hsep : Separate heap spans)
    (hheap : ∀ a ∈ spans, heap' a = (heap a).insertedColumns start delta) :
  Indexed heap' spans
    (index.mapValues fun _ subIndex => shiftKeys start delta subIndex.keys subIndex)
  := by
  have hrows : ∀ a ∈ spans, (heap' a).top = (heap a).top ∧ (heap' a).bottom = (heap a).bottom := by
    intro a ha
    rw [hheap a ha, Span.insertedColumns]
    split
    · exact ⟨rfl, rfl⟩
    · exact ⟨rfl, rfl⟩
  constructor
  · intro a ha
    obtain ⟨subIndex, hget⟩ := h.starts a ha
    rw [OrderedMap.get?_mapValues, (hrows a ha).1, hget]
    exact ⟨_, rfl⟩
  · intro k subIndex hget l a
    rw [OrderedMap.get?_mapValues] at hget
    obtain ⟨sub, hsub, rfl⟩ := Option.map_eq_some_iff.mp hget
    have hcolumn : ∀ l' : ℤ, (∀ a ∈ spans, l' = -(heap a).left ↔ l = -(heap' a).left) →
        (sub.get? l' = some a ↔ a ∈ spans ∧ l = -(heap' a).left ∧ (heap' a).top ≤ -k
          ∧ -k ≤ (heap' a).bottom) := by
      intro l' hleft
      rw [h.filed k sub hsub l' a]
      apply and_congr_right
      intro ha
      rw [hleft a ha, (hrows a ha).1, (hrows a ha).2]
    have hwidth : ∀ a ∈ spans, (heap a).left ≤ (heap a).right := fun a ha =>
      (hsep.nonempty a ha).2
    rw [get?_shiftKeys_keys hdelta]
    split
    next hmoved =>
      apply hcolumn
      intro a ha
      have hle := hwidth a ha
      rw [hheap a ha, Span.insertedColumns, insertedLine]
      grind
    next hstays =>
      split
      next hband =>
        apply iff_of_false (fun hnone => nomatch hnone)
        rintro ⟨ha, hleft, -⟩
        have hle := hwidth a ha
        rw [hheap a ha, Span.insertedColumns, insertedLine] at hleft
        grind
      next hbefore =>
        apply hcolumn
        intro a ha
        have hle := hwidth a ha
        rw [hheap a ha, Span.insertedColumns, insertedLine]
        grind

/-! ### The spans -/

theorem Table.kept_insertRows {r : Rect} (hdelta : 0 < delta) (h : Kept r) :
  Kept (r.insertRows start delta)
  := by
  unfold Kept Rect.Nonempty Rect.IsCell Rect.insertRows Lines.insertAt at *
  grind

theorem Table.kept_insertColumns {r : Rect} (hdelta : 0 < delta) (h : Kept r) :
  Kept (r.insertColumns start delta)
  := by
  unfold Kept Rect.Nonempty Rect.IsCell Rect.insertColumns Lines.insertAt at *
  grind

variable {c : QSpanCollection}

/-- A change that keeps every span. -/
theorem WellFormed.changeAll (h : c.WellFormed) {f : Span → Span} {g : Rect → Rect}
    (hlive : ∀ s, (f s).willBeDeleted = s.willBeDeleted)
    (hkept : ∀ r, Table.Kept r → Table.Kept (g r))
    (hrect : ∀ s, s.rect.Nonempty → (f s).rect = g s.rect)
    (hoverlaps : ∀ r s, (g r).Overlaps (g s) → r.Overlaps s)
    (hindex : Indexed (c.changeSpans f).heap c.spans index) :
  WellFormed { c.changeSpans f with index := index }
    ∧ table { c.changeSpans f with index := index } = c.table.map g
  := by
  have hall : ∀ a ∈ c.spans, Table.Kept (c.heap a).rect := fun a ha =>
    ⟨h.separate.nonempty a ha, h.spanning a ha⟩
  have hchanges : Changes c f g := by
    constructor
    · intro a ha
      rw [hlive, h.live a ha]
      exact iff_of_true rfl (hkept _ (hall a ha))
    · intro a ha _
      exact hrect _ (h.separate.nonempty a ha)
    · exact hoverlaps
  have hspans : keptSpans c f = c.spans := by
    apply List.filter_eq_self.mpr
    intro a ha
    rw [heap_changeSpans_of_mem h ha, hlive, h.live a ha]
    rfl
  have htable : (c.table.map g).filter (fun r => decide (Table.Kept r)) = c.table.map g := by
    apply List.filter_eq_self.mpr
    intro r hr
    obtain ⟨q, hq, rfl⟩ := List.mem_map.mp hr
    obtain ⟨a, ha, rfl⟩ := mem_table.mp hq
    exact decide_eq_true (hkept _ (hall a ha))
  have hchange := h.change hchanges (hspans.symm ▸ hindex)
  rwa [hspans, htable] at hchange

/-- Nothing happens to a collection without spans. -/
theorem table_of_isEmpty (h : c.spans.isEmpty = true) :
  c.table = []
  := by
  rw [table, List.isEmpty_iff.mp h]
  rfl

theorem WellFormed.updateInsertedRows (h : c.WellFormed) {stop : ℤ} (hle : start ≤ stop) :
  (c.updateInsertedRows start stop).WellFormed
    ∧ (c.updateInsertedRows start stop).table
      = c.table.map (Rect.insertRows start (stop - start + 1))
  := by
  unfold QSpanCollection.updateInsertedRows
  by_cases hempty : c.spans.isEmpty = true
  · rw [if_pos hempty, table_of_isEmpty hempty]
    exact ⟨h, rfl⟩
  · rw [if_neg hempty]
    have hdelta : 0 < stop - start + 1 := by omega
    apply h.changeAll
    · intro s
      unfold Span.insertedRows
      split
      · rfl
      · rfl
    · exact fun r hkept => Table.kept_insertRows hdelta hkept
    · intro s hnonempty
      unfold Rect.Nonempty Span.rect at hnonempty
      unfold Span.insertedRows Span.rect Rect.insertRows Lines.insertAt insertedLine
      grind
    · exact fun r s hover => hover.of_insertRows hdelta
    · apply h.indexed.insertedRows hdelta h.separate
      intro a ha
      exact heap_changeSpans_of_mem h ha

theorem WellFormed.updateInsertedColumns (h : c.WellFormed) {stop : ℤ} (hle : start ≤ stop) :
  (c.updateInsertedColumns start stop).WellFormed
    ∧ (c.updateInsertedColumns start stop).table
      = c.table.map (Rect.insertColumns start (stop - start + 1))
  := by
  unfold QSpanCollection.updateInsertedColumns
  by_cases hempty : c.spans.isEmpty = true
  · rw [if_pos hempty, table_of_isEmpty hempty]
    exact ⟨h, rfl⟩
  · rw [if_neg hempty]
    have hdelta : 0 < stop - start + 1 := by omega
    apply h.changeAll
    · intro s
      unfold Span.insertedColumns
      split
      · rfl
      · rfl
    · exact fun r hkept => Table.kept_insertColumns hdelta hkept
    · intro s hnonempty
      unfold Rect.Nonempty Span.rect at hnonempty
      unfold Span.insertedColumns Span.rect Rect.insertColumns Lines.insertAt insertedLine
      grind
    · exact fun r s hover => hover.of_insertColumns hdelta
    · apply h.indexed.insertedColumns hdelta h.separate
      intro a ha
      exact heap_changeSpans_of_mem h ha

end QSpanCollection
