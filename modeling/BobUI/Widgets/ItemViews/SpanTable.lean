import BobUI.Widgets.ItemViews.SpanIndex

/-!
# The spans as rectangles

What the spans of a table view are for: a list of rectangles of cells that do not overlap.  A
call of `setSpan` adds a rectangle, replaces the one with the same top left cell, or drops that
one where it sets a single cell; the insertion of lines moves or stretches the rectangles, and
the removal of lines moves or shrinks them, and drops those of which nothing or a single cell is
left.  The collection keeps this list, and `setSpan` and the insertions keep its index.
-/

namespace QSpanCollection

/-! ### The table -/

/-- The rectangles of the spans, in the order in which they were added. -/
abbrev Table : Type := List Rect

namespace Table

/-- The rectangle starts at a cell. -/
def StartsAt (row column : ℤ) (r : Rect) : Prop :=
  r.rows.first = row ∧ r.columns.first = column

instance (row column : ℤ) : DecidablePred (StartsAt row column) :=
  fun _ => inferInstanceAs (Decidable (_ ∧ _))

/-- The rectangle of a call of `setSpan`. -/
def spanRect (row column rowSpan columnSpan : ℤ) : Rect where
  rows := ⟨row, row + rowSpan - 1⟩
  columns := ⟨column, column + columnSpan - 1⟩

def setSpan (row column rowSpan columnSpan : ℤ) (t : Table) : Table :=
  if row < 0 ∨ column < 0 ∨ rowSpan ≤ 0 ∨ columnSpan ≤ 0 then t
  else
    let r := spanRect row column rowSpan columnSpan
    if ∃ q ∈ t, StartsAt row column q then
      if r.IsCell then t.filter fun q => ¬ StartsAt row column q
      else t.map fun q => if StartsAt row column q then r else q
    else if r.IsCell then t
    else t ++ [r]

/-- The rectangles that are still spans. -/
def Kept (r : Rect) : Prop :=
  r.Nonempty ∧ ¬ r.IsCell

instance : DecidablePred Kept :=
  fun _ => inferInstanceAs (Decidable (_ ∧ _))

/-- What a call does to the rectangles. -/
def step (t : Table) : Call → Table
  | .setSpan row column rowSpan columnSpan => t.setSpan row column rowSpan columnSpan
  | .insertedRows start stop => t.map (Rect.insertRows start (stop - start + 1))
  | .insertedColumns start stop => t.map (Rect.insertColumns start (stop - start + 1))
  | .removedRows start stop => (t.map (Rect.removeRows start stop)).filter fun r => Kept r
  | .removedColumns start stop => (t.map (Rect.removeColumns start stop)).filter fun r => Kept r

/-- The calls that are made: a rectangle that is set overlaps no other span, and lines are
inserted and removed from a first to a last one. -/
def Valid (t : Table) : Call → Prop
  | .setSpan row column rowSpan columnSpan =>
    ∀ q ∈ t, q.Overlaps (spanRect row column rowSpan columnSpan) → StartsAt row column q
  | .insertedRows start stop | .insertedColumns start stop | .removedRows start stop
  | .removedColumns start stop => start ≤ stop

end Table

/-! ### The invariant -/

/-- The spans of the collection are allocated once each, and indexed. -/
structure WellFormed (c : QSpanCollection) : Prop where
  nodup : c.spans.Nodup
  allocated : ∀ a ∈ c.spans, a < c.objects.length
  live : ∀ a ∈ c.spans, (c.heap a).willBeDeleted = false
  spanning : ∀ a ∈ c.spans, ¬ (c.heap a).rect.IsCell
  separate : Separate c.heap c.spans
  indexed : Indexed c.heap c.spans c.index

/-- The rectangles of the spans of a collection. -/
def table (c : QSpanCollection) : Table :=
  c.spans.map fun a => (c.heap a).rect

theorem wellFormed_new :
  new.WellFormed
  where
  nodup := List.nodup_nil
  allocated _ h := absurd h List.not_mem_nil
  live _ h := absurd h List.not_mem_nil
  spanning _ h := absurd h List.not_mem_nil
  separate := ⟨fun _ h => absurd h List.not_mem_nil, fun _ h => absurd h List.not_mem_nil⟩
  indexed := ⟨fun _ h => absurd h List.not_mem_nil, fun _ _ h => nomatch h⟩

/-! ### The objects -/

theorem heap_set {c : QSpanCollection} {sp : SpanId} (h : sp < c.objects.length) (s : Span)
    (a : SpanId) :
  heap { c with objects := c.objects.set sp s } a = if a = sp then s else c.heap a
  := by
  rw [heap, heap, List.getD_eq_getElem?_getD, List.getD_eq_getElem?_getD, List.getElem?_set]
  split
  next heq => rw [if_pos heq.symm]; rfl
  next hne => rw [if_neg (Ne.symm hne)]

theorem heap_append {c : QSpanCollection} {a : SpanId} (h : a < c.objects.length) (s : Span) :
  heap { c with objects := c.objects ++ [s] } a = c.heap a
  := by
  rw [heap, heap, List.getD_eq_getElem?_getD, List.getD_eq_getElem?_getD,
    List.getElem?_append_left h]

theorem heap_append_length (c : QSpanCollection) (s : Span) :
  heap { c with objects := c.objects ++ [s] } c.objects.length = s
  := by
  rw [heap, List.getD_eq_getElem?_getD, List.getElem?_concat_length]
  rfl

theorem length_foldl_modify (f : Span → Span) (spans : List SpanId) (objects : List Span) :
  (spans.foldl (fun objects span => objects.modify span f) objects).length = objects.length
  := by
  induction spans generalizing objects with
  | nil => rfl
  | cons a spans ih => rw [List.foldl_cons, ih, List.length_modify]

/-- A loop over the spans changes each object once. -/
theorem heap_changeSpans {c : QSpanCollection} (h : c.WellFormed) (f : Span → Span) (a : SpanId) :
  (c.changeSpans f).heap a = if a ∈ c.spans then f (c.heap a) else c.heap a
  := by
  have hfold : ∀ (spans : List SpanId) (objects : List Span), spans.Nodup →
      (∀ b ∈ spans, b < objects.length) →
      (spans.foldl (fun objects span => objects.modify span f) objects).getD a .default
        = if a ∈ spans then f (objects.getD a .default) else objects.getD a .default := by
    intro spans
    induction spans with
    | nil => intro objects _ _; rfl
    | cons b spans ih =>
      intro objects hnodup hlt
      rw [List.nodup_cons] at hnodup
      have hb := hlt b List.mem_cons_self
      rw [List.foldl_cons, ih _ hnodup.2 (by
        intro d hd
        rw [List.length_modify]
        exact hlt d (List.mem_cons_of_mem _ hd))]
      have hget : (objects.modify b f).getD a .default
          = if a = b then f (objects.getD a .default) else objects.getD a .default := by
        rw [List.getD_eq_getElem?_getD, List.getD_eq_getElem?_getD, List.getElem?_modify]
        by_cases hab : a = b
        · subst hab
          rw [if_pos rfl, List.getElem?_eq_getElem hb]
          simp only [if_true, Option.map_eq_map, Option.map_some, Option.getD_some]
        · simp only [hab, Ne.symm hab, if_false, Option.map_eq_map, Option.map_id']
      rw [hget]
      by_cases hab : a = b
      · subst hab
        rw [if_neg hnodup.1, if_pos rfl, if_pos List.mem_cons_self]
      · simp only [hab, if_false, List.mem_cons, false_or]
  exact hfold c.spans c.objects h.nodup h.allocated

theorem Separate.congr {heap heap' : SpanId → Span} {spans : List SpanId}
    (h : Separate heap spans) (heq : ∀ a ∈ spans, heap' a = heap a) :
  Separate heap' spans
  := by
  constructor
  · intro a ha
    rw [heq a ha]
    exact h.nonempty a ha
  · intro a ha b hb
    rw [heq a ha, heq b hb]
    exact h.disjoint a ha b hb

theorem Separate.mono {heap : SpanId → Span} {spans spans' : List SpanId} (h : Separate heap spans)
    (hsub : ∀ a ∈ spans', a ∈ spans) :
  Separate heap spans'
  := ⟨fun a ha => h.nonempty a (hsub a ha),
    fun a ha b hb => h.disjoint a (hsub a ha) b (hsub b hb)⟩

theorem Indexed.congr {heap heap' : SpanId → Span} {spans : List SpanId} {index : Index}
    (h : Indexed heap spans index) (heq : ∀ a ∈ spans, heap' a = heap a) :
  Indexed heap' spans index
  := by
  constructor
  · intro a ha
    rw [heq a ha]
    exact h.starts a ha
  · intro k subIndex hget l a
    rw [h.filed k subIndex hget l a]
    apply and_congr_right
    intro ha
    rw [heq a ha]

/-! ### Setting a span -/

/-- `updateSpan` keeps the index when the size of a span has changed. -/
theorem indexed_updateSpan {c : QSpanCollection} {heap₀ : SpanId → Span} {sp : SpanId}
    (h : Indexed heap₀ c.spans c.index) (hnew : Resized heap₀ c.heap sp)
    (hsep₀ : Separate heap₀ c.spans) (hsp : sp ∈ c.spans)
    (hsize : (c.heap sp).rect.Nonempty ∨ (c.heap sp).width = 0 ∧ (c.heap sp).height = 0)
    (hsep : Separate c.heap (c.updateSpan sp (heap₀ sp).height).spans) :
  Indexed c.heap (c.updateSpan sp (heap₀ sp).height).spans
    (c.updateSpan sp (heap₀ sp).height).index
  := by
  have hheight₀ : (heap₀ sp).top ≤ (heap₀ sp).bottom := (hsep₀.nonempty sp hsp).1
  have hlast : (c.heap sp).top + (heap₀ sp).height - 1 = (heap₀ sp).bottom := by
    rw [hnew.top, Span.height]
    omega
  have hstart := OrderedMap.mem_keys_iff.mpr (h.starts sp hsp)
  unfold updateSpan at hsep ⊢
  dsimp only at hsep ⊢
  rw [hlast]
  have htop := hnew.top
  have hheight : (c.heap sp).height = (c.heap sp).bottom - (c.heap sp).top + 1 := rfl
  have hheightOld : (heap₀ sp).height = (heap₀ sp).bottom - (heap₀ sp).top + 1 := rfl
  by_cases hgrow : (heap₀ sp).height < (c.heap sp).height
  · have hkept : ¬ ((c.heap sp).width = 0 ∧ (c.heap sp).height = 0) := by omega
    rw [if_neg hkept] at hsep ⊢
    rw [if_pos hgrow]
    cases hk : c.index.lowerBound (-(heap₀ sp).bottom) with
    | none =>
      have hlt := OrderedMap.lowerBound_eq_none.mp hk _ hstart
      omega
    | some k => exact h.grow hnew hsep hsp hheight₀ (by omega) hk
  · rw [if_neg hgrow]
    by_cases hshrink : (c.heap sp).height < (heap₀ sp).height
    · rw [if_pos hshrink]
      cases hk : c.index.lowerBound (-max (c.heap sp).bottom (c.heap sp).top) with
      | none =>
        have hlt := OrderedMap.lowerBound_eq_none.mp hk _ hstart
        omega
      | some k =>
        apply h.shrink hnew hsep₀ hsp (by omega) _ hk
        intro a
        split
        next hdeleted =>
          rw [List.mem_filter, decide_eq_true_eq]
          apply and_congr_right
          intro _
          exact ⟨fun hne heq => absurd heq hne, fun himp heq => by
            have hle := himp heq
            omega⟩
        next hkept =>
          have hnonempty := hsize.resolve_right hkept
          exact (and_iff_left fun _ => hnonempty.1).symm
    · rw [if_neg hshrink]
      have hkept : ¬ ((c.heap sp).width = 0 ∧ (c.heap sp).height = 0) := by omega
      rw [if_neg hkept]
      constructor
      · intro a ha
        rw [hnew.top_eq]
        exact h.starts a ha
      · intro k subIndex hget
        apply hnew.filed (h.filed k subIndex hget)
        intro _
        omega

/-- A rectangle that is set covers its first cell. -/
theorem Table.spanRect_contains {row column rowSpan columnSpan : ℤ} (hrows : 0 < rowSpan)
    (hcolumns : 0 < columnSpan) :
  (spanRect row column rowSpan columnSpan).contains column row
  := by
  refine ⟨⟨le_refl _, ?_⟩, le_refl _, ?_⟩
  · change column ≤ column + columnSpan - 1
    omega
  · change row ≤ row + rowSpan - 1
    omega

theorem mem_table {c : QSpanCollection} {r : Rect} :
  r ∈ c.table ↔ ∃ a ∈ c.spans, (c.heap a).rect = r
  := List.mem_map

/-- A span is at the first cell of a rectangle that may be set just if it starts there. -/
theorem spanAt_start {c : QSpanCollection} (h : c.WellFormed) {row column rowSpan columnSpan : ℤ}
    (hrows : 0 < rowSpan) (hcolumns : 0 < columnSpan)
    (hvalid : c.table.Valid (.setSpan row column rowSpan columnSpan)) (a : SpanId) :
  c.spanAt column row = some a ↔ a ∈ c.spans ∧ Table.StartsAt row column (c.heap a).rect
  := by
  rw [spanAt_iff h.separate h.indexed]
  apply and_congr_right
  intro ha
  constructor
  · intro hcontains
    apply hvalid _ (mem_table.mpr ⟨a, ha, rfl⟩)
    exact ⟨column, row, hcontains, Table.spanRect_contains hrows hcolumns⟩
  · rintro ⟨htop, hleft⟩
    have hnonempty := h.separate.nonempty a ha
    exact ⟨⟨le_of_eq hleft, hleft ▸ hnonempty.2⟩, le_of_eq htop, htop ▸ hnonempty.1⟩

/-- A new span. -/
theorem WellFormed.addSpan {c : QSpanCollection} (h : c.WellFormed) {s : Span}
    (hlive : s.willBeDeleted = false) (hcell : ¬ s.rect.IsCell) (hnonempty : s.rect.Nonempty)
    (hfree : ∀ a ∈ c.spans, ¬ (c.heap a).rect.Overlaps s.rect) :
  (QSpanCollection.addSpan { c with objects := c.objects ++ [s] } c.objects.length).WellFormed
    ∧ (QSpanCollection.addSpan { c with objects := c.objects ++ [s] } c.objects.length).table
      = c.table ++ [s.rect]
  := by
  have hold : ∀ a ∈ c.spans, heap { c with objects := c.objects ++ [s] } a = c.heap a :=
    fun a ha => heap_append (h.allocated a ha) s
  have hnew := heap_append_length c s
  have hsep : Separate (heap { c with objects := c.objects ++ [s] })
      (c.spans ++ [c.objects.length]) := by
    constructor
    · intro a ha
      rcases List.mem_append.mp ha with ha | ha
      · rw [hold a ha]
        exact h.separate.nonempty a ha
      · rw [List.mem_singleton.mp ha, hnew]
        exact hnonempty
    · intro a ha b hb hab
      rcases List.mem_append.mp ha with ha | ha
      · rcases List.mem_append.mp hb with hb | hb
        · rw [hold a ha, hold b hb] at hab
          exact h.separate.disjoint a ha b hb hab
        · rw [hold a ha, List.mem_singleton.mp hb, hnew] at hab
          exact absurd hab (hfree a ha)
      · rcases List.mem_append.mp hb with hb | hb
        · rw [hold b hb, List.mem_singleton.mp ha, hnew] at hab
          exact absurd hab.symm (hfree b hb)
        · rw [List.mem_singleton.mp ha, List.mem_singleton.mp hb]
  have hspans : ∀ {P : Span → Prop}, (∀ a ∈ c.spans, P (c.heap a)) → P s →
      ∀ a ∈ c.spans ++ [c.objects.length], P (heap { c with objects := c.objects ++ [s] } a) := by
    intro P hP hs a ha
    rcases List.mem_append.mp ha with ha | ha
    · rw [hold a ha]
      exact hP a ha
    · rw [List.mem_singleton.mp ha, hnew]
      exact hs
  constructor
  · constructor
    · apply List.nodup_append.mpr
      refine ⟨h.nodup, List.pairwise_singleton _ _, ?_⟩
      intro a ha b hb
      rw [List.mem_singleton.mp hb]
      exact Nat.ne_of_lt (h.allocated a ha)
    · intro a ha
      change a < (c.objects ++ [s]).length
      rw [List.length_append, List.length_singleton]
      rcases List.mem_append.mp ha with ha | ha
      · exact Nat.lt_succ_of_lt (h.allocated a ha)
      · rw [List.mem_singleton.mp ha]
        exact Nat.lt_succ_self _
    · exact hspans (P := fun s => s.willBeDeleted = false) h.live hlive
    · exact hspans (P := fun s => ¬ s.rect.IsCell) h.spanning hcell
    · exact hsep
    · exact indexed_addSpan (c := { c with objects := c.objects ++ [s] })
        (h.indexed.congr hold) hsep
  · change (c.spans ++ [c.objects.length]).map _ = c.spans.map _ ++ [s.rect]
    rw [List.map_append, List.map_singleton]
    congr 1
    · apply List.map_congr_left
      intro a ha
      exact congrArg Span.rect (hold a ha)
    · exact congrArg (fun s => [Span.rect s]) hnew

/-- The size of a span is changed in its object. -/
theorem resized_set {c : QSpanCollection} {sp : SpanId} (hsp : sp < c.objects.length) {s : Span}
    (htop : s.top = (c.heap sp).top) (hleft : s.left = (c.heap sp).left) :
  Resized c.heap (heap { c with objects := c.objects.set sp s }) sp
  := by
  have hset := heap_set hsp s
  constructor
  · intro a ha
    rw [hset, if_neg ha]
  · rw [hset, if_pos rfl, htop]
  · rw [hset, if_pos rfl, hleft]

/-- A span with another size. -/
theorem WellFormed.resize {c : QSpanCollection} (h : c.WellFormed) {sp : SpanId}
    (hsp : sp ∈ c.spans) {s : Span} (htop : s.top = (c.heap sp).top)
    (hleft : s.left = (c.heap sp).left) (hlive : s.willBeDeleted = false)
    (hnonempty : s.rect.Nonempty) (hcell : ¬ s.rect.IsCell)
    (hfree : ∀ a ∈ c.spans, a ≠ sp → ¬ (c.heap a).rect.Overlaps s.rect) :
  (updateSpan { c with objects := c.objects.set sp s } sp (c.heap sp).height).WellFormed
    ∧ (updateSpan { c with objects := c.objects.set sp s } sp (c.heap sp).height).table
      = c.spans.map fun a => if a = sp then s.rect else (c.heap a).rect
  := by
  have hset := heap_set (h.allocated sp hsp) s
  have hspans : (updateSpan { c with objects := c.objects.set sp s } sp (c.heap sp).height).spans
      = c.spans := by
    apply if_neg
    rintro ⟨-, hheight⟩
    rw [hset, if_pos rfl, Span.height] at hheight
    have hle : s.top ≤ s.bottom := hnonempty.1
    omega
  have heach : ∀ {P : Span → Prop}, (∀ a ∈ c.spans, P (c.heap a)) → P s →
      ∀ a ∈ c.spans, P (heap { c with objects := c.objects.set sp s } a) := by
    intro P hP hs a ha
    rw [hset]
    split
    · exact hs
    · exact hP a ha
  have hsep : Separate (heap { c with objects := c.objects.set sp s }) c.spans := by
    constructor
    · exact heach (P := fun s => s.rect.Nonempty) h.separate.nonempty hnonempty
    · intro a ha b hb hab
      rw [hset, hset] at hab
      by_cases heqA : a = sp
      · by_cases heqB : b = sp
        · rw [heqA, heqB]
        · rw [if_pos heqA, if_neg heqB] at hab
          exact absurd hab.symm (hfree b hb heqB)
      · rw [if_neg heqA] at hab
        by_cases heqB : b = sp
        · rw [if_pos heqB] at hab
          exact absurd hab (hfree a ha heqA)
        · rw [if_neg heqB] at hab
          exact h.separate.disjoint a ha b hb hab
  have hheap : heap (updateSpan { c with objects := c.objects.set sp s } sp (c.heap sp).height)
      = heap { c with objects := c.objects.set sp s } := rfl
  constructor
  · constructor
    · rw [hspans]
      exact h.nodup
    · intro a ha
      change a < (c.objects.set sp s).length
      rw [List.length_set]
      exact h.allocated a (hspans ▸ ha)
    · rw [hspans]
      exact heach (P := fun s => s.willBeDeleted = false) h.live hlive
    · rw [hspans]
      exact heach (P := fun s => ¬ s.rect.IsCell) h.spanning hcell
    · rw [hspans]
      exact hsep
    · rw [hheap]
      apply indexed_updateSpan (c := { c with objects := c.objects.set sp s }) h.indexed
        (resized_set (h.allocated sp hsp) htop hleft) h.separate hsp
      · rw [hset, if_pos rfl]
        exact .inl hnonempty
      · rw [hspans]
        exact hsep
  · rw [table, hspans, hheap]
    apply List.map_congr_left
    intro a _
    rw [hset]
    split
    · rfl
    · rfl

/-- A span that is given up. -/
theorem WellFormed.giveUp {c : QSpanCollection} (h : c.WellFormed) {sp : SpanId}
    (hsp : sp ∈ c.spans) {s : Span} (htop : s.top = (c.heap sp).top)
    (hleft : s.left = (c.heap sp).left) (hsize : s.width = 0 ∧ s.height = 0) :
  (updateSpan { c with objects := c.objects.set sp s } sp (c.heap sp).height).WellFormed
    ∧ (updateSpan { c with objects := c.objects.set sp s } sp (c.heap sp).height).table
      = (c.spans.filter (· ≠ sp)).map fun a => (c.heap a).rect
  := by
  have hset := heap_set (h.allocated sp hsp) s
  have hspans : (updateSpan { c with objects := c.objects.set sp s } sp (c.heap sp).height).spans
      = c.spans.filter (· ≠ sp) := by
    apply if_pos
    rw [hset, if_pos rfl]
    exact hsize
  have hmem : ∀ a ∈ c.spans.filter (· ≠ sp), a ∈ c.spans := fun a ha => List.mem_of_mem_filter ha
  have hold : ∀ a ∈ c.spans.filter (· ≠ sp),
      heap { c with objects := c.objects.set sp s } a = c.heap a := by
    intro a ha
    rw [hset, if_neg (of_decide_eq_true (List.mem_filter.mp ha).2)]
  have heach : ∀ {P : Span → Prop}, (∀ a ∈ c.spans, P (c.heap a)) →
      ∀ a ∈ c.spans.filter (· ≠ sp), P (heap { c with objects := c.objects.set sp s } a) := by
    intro P hP a ha
    rw [hold a ha]
    exact hP a (hmem a ha)
  have hsep : Separate (heap { c with objects := c.objects.set sp s })
      (c.spans.filter (· ≠ sp)) := (h.separate.mono hmem).congr hold
  have hheap : heap (updateSpan { c with objects := c.objects.set sp s } sp (c.heap sp).height)
      = heap { c with objects := c.objects.set sp s } := rfl
  constructor
  · constructor
    · rw [hspans]
      exact h.nodup.filter _
    · intro a ha
      change a < (c.objects.set sp s).length
      rw [List.length_set]
      exact h.allocated a (hmem a (hspans ▸ ha))
    · rw [hspans]
      exact heach (P := fun s => s.willBeDeleted = false) h.live
    · rw [hspans]
      exact heach (P := fun s => ¬ s.rect.IsCell) h.spanning
    · rw [hspans]
      exact hsep
    · rw [hheap]
      apply indexed_updateSpan (c := { c with objects := c.objects.set sp s }) h.indexed
        (resized_set (h.allocated sp hsp) htop hleft) h.separate hsp
      · rw [hset, if_pos rfl]
        exact .inr hsize
      · rw [hspans]
        exact hsep
  · rw [table, hspans, hheap]
    apply List.map_congr_left
    intro a ha
    rw [hold a ha]

/-- A call of `setSpan` for a rectangle that no other span overlaps. -/
theorem WellFormed.setSpan {c : QSpanCollection} (h : c.WellFormed)
    {row column rowSpan columnSpan : ℤ}
    (hvalid : c.table.Valid (.setSpan row column rowSpan columnSpan)) :
  (c.setSpan row column rowSpan columnSpan).WellFormed
    ∧ (c.setSpan row column rowSpan columnSpan).table
      = c.table.setSpan row column rowSpan columnSpan
  := by
  unfold QSpanCollection.setSpan Table.setSpan
  by_cases hguard : row < 0 ∨ column < 0 ∨ rowSpan ≤ 0 ∨ columnSpan ≤ 0
  · rw [if_pos hguard, if_pos hguard]
    exact ⟨h, rfl⟩
  rw [if_neg hguard, if_neg hguard]
  have hrows : 0 < rowSpan := by omega
  have hcolumns : 0 < columnSpan := by omega
  have hat := spanAt_start h hrows hcolumns hvalid
  have hisCell : (Table.spanRect row column rowSpan columnSpan).IsCell
      ↔ rowSpan = 1 ∧ columnSpan = 1 := by
    change row = row + rowSpan - 1 ∧ column = column + columnSpan - 1 ↔ _
    omega
  have hnonempty : (Table.spanRect row column rowSpan columnSpan).Nonempty := by
    change row ≤ row + rowSpan - 1 ∧ column ≤ column + columnSpan - 1
    omega
  cases hfind : c.spanAt column row with
  | none =>
    have hnone : ∀ q ∈ c.table, ¬ Table.StartsAt row column q := by
      intro q hq hstart
      obtain ⟨a, ha, rfl⟩ := mem_table.mp hq
      rw [(hat a).mpr ⟨ha, hstart⟩] at hfind
      cases hfind
    have hnot : ¬ ∃ q ∈ c.table, Table.StartsAt row column q := by
      rintro ⟨q, hq, hstart⟩
      exact hnone q hq hstart
    simp only [hnot, if_false, hisCell]
    by_cases hone : rowSpan = 1 ∧ columnSpan = 1
    · rw [if_pos hone, if_pos hone]
      exact ⟨h, rfl⟩
    · rw [if_neg hone, if_neg hone]
      apply h.addSpan (s := Span.new row column rowSpan columnSpan) rfl (hisCell.not.mpr hone)
        hnonempty
      intro a ha hover
      have hq := mem_table.mpr ⟨a, ha, rfl⟩
      exact hnone _ hq (hvalid _ hq hover)
  | some sp =>
    obtain ⟨hsp, hstart⟩ := (hat sp).mp hfind
    have htop : (c.heap sp).top = row := hstart.1
    have hleft : (c.heap sp).left = column := hstart.2
    have hstarts : ∀ a ∈ c.spans, Table.StartsAt row column (c.heap a).rect ↔ a = sp := by
      intro a ha
      constructor
      · intro hother
        have hsame := (hat a).mpr ⟨ha, hother⟩
        rw [hfind] at hsame
        exact (Option.some.inj hsame).symm
      · rintro rfl
        exact hstart
    have hsome : ∃ q ∈ c.table, Table.StartsAt row column q :=
      ⟨_, mem_table.mpr ⟨sp, hsp, rfl⟩, hstart⟩
    have hmoved : ¬ ((c.heap sp).top ≠ row ∨ (c.heap sp).left ≠ column) := by omega
    dsimp only
    simp only [hmoved, hsome, if_false, if_true, hisCell]
    by_cases hone : rowSpan = 1 ∧ columnSpan = 1
    · simp only [hone, and_self, if_true]
      have hgiveUp := h.giveUp hsp (s := { c.heap sp with
        bottom := row + 0 - 1, right := column + 0 - 1 }) rfl rfl (by
          simp only [Span.width, Span.height]
          omega)
      refine ⟨hgiveUp.1, hgiveUp.2.trans ?_⟩
      rw [table, List.filter_map]
      congr 1
      apply List.filter_congr
      intro a ha
      simp only [Function.comp_apply, hstarts a ha, ne_eq]
    · simp only [hone, if_false]
      have hresize := h.resize hsp (s := { c.heap sp with
        bottom := row + rowSpan - 1, right := column + columnSpan - 1 }) rfl rfl
        (h.live sp hsp) (by
          simp only [Rect.Nonempty, Span.rect]
          omega) (by
          simp only [Rect.IsCell, Span.rect]
          omega) (by
          intro a ha hne hover
          simp only [Span.rect, htop, hleft] at hover
          exact hne ((hstarts a ha).mp (hvalid _ (mem_table.mpr ⟨a, ha, rfl⟩) hover)))
      refine ⟨hresize.1, hresize.2.trans ?_⟩
      rw [table, List.map_map]
      apply List.map_congr_left
      intro a ha
      simp only [Function.comp_apply, hstarts a ha]
      split
      · simp only [Span.rect, Table.spanRect, htop, hleft]
      · rfl

/-! ### Changing all spans -/

section Change

variable {c : QSpanCollection} {f : Span → Span} {g : Rect → Rect}

/-- The objects change as the rectangles do, and a span is deleted just if its rectangle is not
kept. -/
structure Changes (c : QSpanCollection) (f : Span → Span) (g : Rect → Rect) : Prop where
  kept : ∀ a ∈ c.spans, (f (c.heap a)).willBeDeleted = false ↔ Table.Kept (g (c.heap a).rect)
  rect : ∀ a ∈ c.spans, Table.Kept (g (c.heap a).rect) → (f (c.heap a)).rect = g (c.heap a).rect
  overlaps : ∀ r s, (g r).Overlaps (g s) → r.Overlaps s

/-- The spans that are left after a change. -/
def keptSpans (c : QSpanCollection) (f : Span → Span) : List SpanId :=
  c.spans.filter fun a => !((c.changeSpans f).heap a).willBeDeleted

theorem heap_changeSpans_of_mem (h : c.WellFormed) {a : SpanId} (ha : a ∈ c.spans) :
  (c.changeSpans f).heap a = f (c.heap a)
  := by
  rw [heap_changeSpans h, if_pos ha]

theorem mem_keptSpans (h : c.WellFormed) (hchanges : Changes c f g) {a : SpanId} :
  a ∈ keptSpans c f ↔ a ∈ c.spans ∧ Table.Kept (g (c.heap a).rect)
  := by
  rw [keptSpans, List.mem_filter]
  apply and_congr_right
  intro ha
  rw [← hchanges.kept a ha, heap_changeSpans_of_mem h ha, Bool.not_eq_true']

theorem rect_keptSpans (h : c.WellFormed) (hchanges : Changes c f g) {a : SpanId}
    (ha : a ∈ keptSpans c f) :
  ((c.changeSpans f).heap a).rect = g (c.heap a).rect
  := by
  obtain ⟨hmem, hkept⟩ := (mem_keptSpans h hchanges).mp ha
  rw [heap_changeSpans_of_mem h hmem, hchanges.rect a hmem hkept]

theorem separate_keptSpans (h : c.WellFormed) (hchanges : Changes c f g) :
  Separate (c.changeSpans f).heap (keptSpans c f)
  := by
  constructor
  · intro a ha
    rw [rect_keptSpans h hchanges ha]
    exact ((mem_keptSpans h hchanges).mp ha).2.1
  · intro a ha b hb hab
    rw [rect_keptSpans h hchanges ha, rect_keptSpans h hchanges hb] at hab
    exact h.separate.disjoint a ((mem_keptSpans h hchanges).mp ha).1 b
      ((mem_keptSpans h hchanges).mp hb).1 (hchanges.overlaps _ _ hab)

/-- A change of the objects, after which the index has been changed, too. -/
theorem WellFormed.change (h : c.WellFormed) (hchanges : Changes c f g) {index : Index}
    (hindex : Indexed (c.changeSpans f).heap (keptSpans c f) index) :
  WellFormed { c.changeSpans f with spans := keptSpans c f, index := index }
    ∧ table { c.changeSpans f with spans := keptSpans c f, index := index }
      = (c.table.map g).filter fun r => Table.Kept r
  := by
  constructor
  · constructor
    · exact h.nodup.filter _
    · intro a ha
      change a < (c.spans.foldl (fun objects span => objects.modify span f) c.objects).length
      rw [length_foldl_modify]
      exact h.allocated a (List.mem_of_mem_filter ha)
    · intro a ha
      have hlive := (List.mem_filter.mp ha).2
      rwa [Bool.not_eq_true'] at hlive
    · intro a ha
      change ¬ ((c.changeSpans f).heap a).rect.IsCell
      rw [rect_keptSpans h hchanges ha]
      exact ((mem_keptSpans h hchanges).mp ha).2.2
    · exact separate_keptSpans h hchanges
    · exact hindex
  · change (keptSpans c f).map (fun a => ((c.changeSpans f).heap a).rect) = _
    rw [table, List.map_map, List.filter_map]
    have hfilter : keptSpans c f
        = c.spans.filter ((fun r => decide (Table.Kept r)) ∘ g ∘ fun a => (c.heap a).rect) := by
      apply List.filter_congr
      intro a ha
      rw [heap_changeSpans_of_mem h ha, Function.comp_apply, Function.comp_apply,
        Bool.eq_iff_iff, Bool.not_eq_true', hchanges.kept a ha, decide_eq_true_eq]
    rw [← hfilter]
    apply List.map_congr_left
    intro a ha
    exact rect_keptSpans h hchanges ha

end Change

end QSpanCollection
