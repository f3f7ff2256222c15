import BobUI.Widgets.ItemViews.SpanRemoval

/-!
# Removing rows

The loop of `updateRemovedRows` over the rows of the index.  A row in front of the removed ones is
cleaned, and a row behind them moves.  The first row behind them takes in the spans of the removed
rows where a span starts there now.  It gets spans that end in front of it if such a span meets
one of these in a removed row; where this does not happen, the index is kept.
-/

namespace QSpanCollection

/-- A rectangle ends in the removed rows, and not before another one starts there that goes on
behind them. -/
def LeftBehind (start stop : ℤ) (a b : Rect) : Prop :=
  a.rows.first < start ∧ start ≤ b.rows.first ∧ b.rows.first ≤ a.rows.last ∧ a.rows.last ≤ stop
    ∧ stop < b.rows.last

instance (start stop : ℤ) (a b : Rect) : Decidable (LeftBehind start stop a b) :=
  inferInstanceAs (Decidable (_ ∧ _))

/-- The spans before and after the removal of rows that leaves no span behind. -/
structure RowRemoval (heap heap' : SpanId → Span) (spans spans' : List SpanId)
    (start stop : ℤ) : Prop extends Removal heap heap' spans spans' where
  le : start ≤ stop
  columns : ∀ a ∈ spans', (heap' a).left = (heap a).left
  rows : ∀ a ∈ spans', (heap' a).rect.rows = (heap a).rect.rows.removeFrom start stop
  survives : ∀ a ∈ spans, stop + 1 < (heap a).bottom → a ∈ spans'
  leftBehind : ∀ a ∈ spans', ∀ b ∈ spans', ¬ LeftBehind start stop (heap a).rect (heap b).rect

section Loop

variable {heap heap' : SpanId → Span} {spans spans' : List SpanId} {start stop : ℤ}
variable {index₀ : Index}

/-! ### The rows of the spans that are left -/

variable {t : ℤ} {index : Index} {subIndex : SubIndex} {a : SpanId} {row : ℤ}

theorem RowRemoval.crosses (h : RowRemoval heap heap' spans spans' start stop) (ha : a ∈ spans')
    (row : ℤ) :
  Crosses heap' row a
    ↔ Crosses heap (if row < start then row else row + (stop - start + 1)) a
  := by
  have hcontains := Lines.contains_removeFrom h.le (heap a).rect.rows row
  rw [← h.rows a ha] at hcontains
  exact hcontains

theorem RowRemoval.top (h : RowRemoval heap heap' spans spans' start stop) (ha : a ∈ spans') :
  (heap' a).top
    = if (heap a).top < start then (heap a).top
      else if (heap a).top ≤ stop then start
      else (heap a).top - (stop - start + 1)
  := congrArg Lines.first (h.rows a ha)

theorem RowRemoval.bottom (h : RowRemoval heap heap' spans spans' start stop) (ha : a ∈ spans') :
  (heap' a).bottom
    = if (heap a).bottom < start then (heap a).bottom
      else if (heap a).bottom ≤ stop then start - 1
      else (heap a).bottom - (stop - start + 1)
  := congrArg Lines.last (h.rows a ha)

/-! ### The rows that are merged -/

/-- The spans of a row are merged into the first one behind the removed rows. -/
def Merged (heap heap' : SpanId → Span) (spans' : List SpanId) (start stop : ℤ) (index₀ : Index)
    (row : ℤ) : Prop :=
  (∃ subIndex, index₀.get? (-row) = some subIndex)
    ∧ (row = stop + 1
      ∨ start ≤ row ∧ row ≤ stop ∧ ∃ a ∈ spans', Crosses heap row a ∧ (heap' a).top = start)

/-- The first row behind the removed ones, when those in front of `t` have been merged. -/
def MergedRow (heap heap' : SpanId → Span) (spans' : List SpanId) (start stop : ℤ)
    (index₀ : Index) (t : ℤ) (subIndex : SubIndex) : Prop :=
  ∀ l a, subIndex.get? l = some a
    ↔ a ∈ spans' ∧ l = -(heap' a).left
      ∧ ∃ row, row < t ∧ Merged heap heap' spans' start stop index₀ row ∧ Crosses heap row a

/-- The spans of the rows that are merged cover the first row behind the removed ones. -/
theorem RowRemoval.crosses_start (h : RowRemoval heap heap' spans spans' start stop)
    (hrow : Merged heap heap' spans' start stop index₀ row) (ha : a ∈ spans')
    (hcrosses : Crosses heap row a) :
  Crosses heap' start a
  := by
  rw [h.crosses ha, if_neg (Int.lt_irrefl start), show start + (stop - start + 1) = stop + 1 by omega]
  obtain ⟨-, rfl | ⟨hstart, hstop, b, hb, hcrossesB, htopB⟩⟩ := hrow
  · exact hcrosses
  · have hnonemptyA : (heap' a).top ≤ (heap' a).bottom := (h.after.nonempty a ha).1
    have hnonemptyB : (heap' b).top ≤ (heap' b).bottom := (h.after.nonempty b hb).1
    have hnot := h.leftBehind a ha b hb
    rw [h.top hb] at htopB
    rw [h.top ha, h.bottom ha] at hnonemptyA
    rw [h.top hb, h.bottom hb] at hnonemptyB
    unfold LeftBehind Span.rect at hnot
    unfold Crosses at *
    grind

theorem get?_spansToBeMoved (heap : SpanId → Span) (subIndex : SubIndex) (l : ℤ) (a : SpanId) :
  (spansToBeMoved heap subIndex).get? l = some a
    ↔ subIndex.get? l = some a ∧ (heap a).willBeDeleted = false
  := by
  have hfold := OrderedMap.get?_foldl_insert Prod.fst Prod.snd
    (subIndex.entries.filter fun e => !(heap e.2).willBeDeleted) .empty (by
      intro a ha b hb hkey
      rw [subIndex.eq_of_key_eq (List.mem_of_mem_filter ha) (List.mem_of_mem_filter hb) hkey])
    l a
  rw [List.foldl_filter] at hfold
  have hmoved : spansToBeMoved heap subIndex = subIndex.entries.foldl (fun moved e =>
      if (!(heap e.2).willBeDeleted) = true then moved.insert e.1 e.2 else moved) .empty := by
    unfold spansToBeMoved
    congr 1
    funext moved e
    cases (heap e.2).willBeDeleted
    · rfl
    · rfl
  rw [hmoved, hfold, OrderedMap.get?_empty, OrderedMap.get?_eq_some_iff]
  simp only [List.mem_filter, Bool.not_eq_true', Prod.exists, reduceCtorEq, and_false, or_false]
  constructor
  · rintro ⟨l', a', ⟨hmem, hlive⟩, rfl, rfl⟩
    exact ⟨hmem, hlive⟩
  · rintro ⟨hmem, hlive⟩
    exact ⟨l, a, ⟨hmem, hlive⟩, rfl, rfl⟩

theorem get?_insertAll (subIndex moved : SubIndex) (l : ℤ) (a : SpanId) :
  (insertAll subIndex moved).get? l = some a
    ↔ moved.get? l = some a ∨ moved.get? l = none ∧ subIndex.get? l = some a
  := by
  have hfold := OrderedMap.get?_foldl_insert Prod.fst Prod.snd moved.entries subIndex (by
      intro a ha b hb hkey
      rw [moved.eq_of_key_eq ha hb hkey]) l a
  rw [insertAll, hfold, OrderedMap.get?_eq_some_iff (m := moved), OrderedMap.get?_eq_none_iff]
  apply or_congr
  · constructor
    · rintro ⟨⟨l', a'⟩, hmem, rfl, rfl⟩
      exact hmem
    · intro hmem
      exact ⟨(l, a), hmem, rfl, rfl⟩
  · apply and_congr_left
    intro _
    rw [OrderedMap.keys, List.mem_map]
    constructor
    · rintro hnone ⟨e, he, hkey⟩
      exact hnone e he hkey
    · intro hnone e he hkey
      exact hnone ⟨e, he, hkey⟩

/-- The spans of a row that are moved. -/
theorem RowRemoval.moved (h : RowRemoval heap heap' spans spans' start stop)
    (hfiled : Filed heap spans row subIndex) (l : ℤ) (a : SpanId) :
  (spansToBeMoved heap' subIndex).get? l = some a
    ↔ a ∈ spans' ∧ l = -(heap' a).left ∧ Crosses heap row a
  := by
  rw [get?_spansToBeMoved, hfiled l a, h.live a]
  constructor
  · rintro ⟨⟨ha, hl, hrow⟩, hlive⟩
    rw [h.columns a ((h.live a).mpr ⟨ha, hlive⟩)]
    exact ⟨⟨ha, hlive⟩, hl, hrow⟩
  · rintro ⟨⟨ha, hlive⟩, hl, hrow⟩
    rw [h.columns a ((h.live a).mpr ⟨ha, hlive⟩)] at hl
    exact ⟨⟨ha, hl, hrow⟩, hlive⟩

theorem RowRemoval.spanAtStart_iff (h : RowRemoval heap heap' spans spans' start stop)
    (hfiled : Filed heap spans row subIndex) :
  spanAtStart heap' start subIndex = true
    ↔ ∃ a ∈ spans', Crosses heap row a ∧ (heap' a).top = start
  := by
  unfold spanAtStart
  rw [List.any_eq_true]
  constructor
  · rintro ⟨⟨l, a⟩, hmem, hboth⟩
    rw [Bool.and_eq_true, Bool.not_eq_true', decide_eq_true_eq] at hboth
    obtain ⟨ha, -, hrow⟩ := (hfiled l a).mp (OrderedMap.get?_eq_some_iff.mpr hmem)
    exact ⟨a, (h.live a).mpr ⟨ha, hboth.1⟩, hrow, hboth.2⟩
  · rintro ⟨a, ha, hrow, htop⟩
    obtain ⟨hmem, hlive⟩ := (h.live a).mp ha
    refine ⟨(-(heap a).left, a), ?_, ?_⟩
    · exact OrderedMap.get?_eq_some_iff.mp ((hfiled _ a).mpr ⟨hmem, rfl, hrow⟩)
    · rw [Bool.and_eq_true, Bool.not_eq_true', decide_eq_true_eq]
      exact ⟨hlive, htop⟩

/-- One more row is merged. -/
theorem RowRemoval.mergedRow (h : RowRemoval heap heap' spans spans' start stop)
    {startIndex : SubIndex} (hmerged : MergedRow heap heap' spans' start stop index₀ t startIndex)
    (hrow : Merged heap heap' spans' start stop index₀ t) (hfiled : Filed heap spans t subIndex) :
  MergedRow heap heap' spans' start stop index₀ (t + 1)
    (insertAll startIndex (spansToBeMoved heap' subIndex))
  := by
  intro l a
  have hnew := h.moved hfiled l
  rw [get?_insertAll, hnew, hmerged l a]
  constructor
  · rintro (⟨ha, hl, hcrosses⟩ | ⟨-, ha, hl, row, hlt, hold⟩)
    · exact ⟨ha, hl, t, by omega, hrow, hcrosses⟩
    · exact ⟨ha, hl, row, by omega, hold⟩
  · rintro ⟨ha, hl, row, hlt, hrowA, hcrosses⟩
    by_cases hlast : Crosses heap t a
    · exact .inl ⟨ha, hl, hlast⟩
    · have hne : row ≠ t := by
        rintro rfl
        exact hlast hcrosses
      refine .inr ⟨?_, ha, hl, row, by omega, hrowA, hcrosses⟩
      apply Option.eq_none_iff_forall_ne_some.mpr
      intro b hb
      obtain ⟨hliveB, hlB, hcrossesB⟩ := (hnew b).mp hb
      have hsame := h.after.eq_of_row ha hliveB (h.crosses_start hrowA ha hcrosses)
        (h.crosses_start hrow hliveB hcrossesB) (by omega)
      exact hlast (hsame ▸ hcrossesB)

/-! ### The rows that are moved -/

theorem get?_moveRow (heap : SpanId → Span) (start t : ℤ) (index : Index) (k : ℤ) :
  (moveRow heap start (-t) index).get? k
    = if spanAtStart heap start ((index.get? (-t)).getD .empty) = true ∧ k = -start then
        some (insertAll (if t = start then .empty else (index.get? (-start)).getD .empty)
          (spansToBeMoved heap ((index.get? (-t)).getD .empty)))
      else if k = -t then none
      else index.get? k
  := by
  unfold moveRow
  dsimp only
  rw [Int.neg_neg]
  by_cases hstart : spanAtStart heap start ((index.get? (-t)).getD .empty) = true
  · simp only [hstart, if_true, true_and, OrderedMap.get?_insert]
    by_cases hk : k = -start
    · simp only [hk, if_true]
      by_cases ht : t = start
      · simp only [ht, if_true, OrderedMap.get?_insert, Option.getD_some]
      · have hne : ¬ -start = -t := by omega
        simp only [ht, if_false, OrderedMap.get?_erase, hne]
    · simp only [hk, if_false]
      by_cases ht : t = start
      · simp only [ht, if_true, OrderedMap.get?_insert, hk, if_false]
      · simp only [ht, if_false, OrderedMap.get?_erase]
  · rw [if_neg hstart, if_neg (fun hboth => hstart hboth.1), OrderedMap.get?_erase]

/-- The index when the rows in front of `t` have been removed. -/
structure HalfRemoved (heap heap' : SpanId → Span) (spans' : List SpanId) (start stop : ℤ)
    (index₀ : Index) (t : ℤ) (index : Index) : Prop where
  later : ∀ row, t ≤ row → index.get? (-row) = index₀.get? (-row)
  before : ∀ row, row < start → row < t →
    (∀ subIndex, index.get? (-row) = some subIndex → Filed heap' spans' row subIndex)
      ∧ ∀ a ∈ spans', (heap' a).top = row → ∃ subIndex, index.get? (-row) = some subIndex
  after : ∀ row, start < row → row < t →
    index.get? (-row) = if row + (stop - start + 1) < t then
        index₀.get? (-(row + (stop - start + 1)))
      else none
  first : start < t →
    (∀ subIndex, index.get? (-start) = some subIndex →
      (∃ row, row < t ∧ Merged heap heap' spans' start stop index₀ row)
        ∧ MergedRow heap heap' spans' start stop index₀ t subIndex)
      ∧ ((∃ row, row < t ∧ Merged heap heap' spans' start stop index₀ row) →
        ∃ subIndex, index.get? (-start) = some subIndex)

/-- A span that starts in front of the removed rows did so before. -/
theorem RowRemoval.top_before (h : RowRemoval heap heap' spans spans' start stop) (ha : a ∈ spans')
    (htop : (heap' a).top < start) :
  (heap' a).top = (heap a).top
  := by
  rw [h.top ha] at htop ⊢
  grind

/-- Rows for which there is no entry are passed over. -/
theorem HalfRemoved.skip (h : RowRemoval heap heap' spans spans' start stop)
    (hindex : Indexed heap spans index₀) {t' : ℤ} (ht : t ≤ t')
    (hhalf : HalfRemoved heap heap' spans' start stop index₀ t index)
    (hnone : ∀ row, t ≤ row → row < t' → index₀.get? (-row) = none) :
  HalfRemoved heap heap' spans' start stop index₀ t' index
  := by
  have hle := h.le
  constructor
  · exact fun row hrow => hhalf.later row (Int.le_trans ht hrow)
  · intro row hstart hrow
    by_cases hold : row < t
    · exact hhalf.before row hstart hold
    · have hrow₀ := hnone row (by omega) hrow
      have hget := (hhalf.later row (by omega)).trans hrow₀
      constructor
      · intro subIndex hsome
        rw [hget] at hsome
        cases hsome
      · intro a ha htop
        obtain ⟨subIndex, hsome⟩ := hindex.starts a ((h.live a).mp ha).1
        rw [← h.top_before ha (by omega), htop, hrow₀] at hsome
        cases hsome
  · intro row hstart hrow
    by_cases hold : row < t
    · rw [hhalf.after row hstart hold]
      by_cases hlt : row + (stop - start + 1) < t
      · rw [if_pos hlt, if_pos (by omega)]
      · rw [if_neg hlt]
        split
        next hlt' => exact (hnone _ (by omega) hlt').symm
        next => rfl
    · rw [hhalf.later row (by omega), hnone row (by omega) hrow]
      split
      next hlt' => exact (hnone _ (by omega) hlt').symm
      next => rfl
  · intro hstart
    have hmerged : ∀ row, Merged heap heap' spans' start stop index₀ row → row < t' → row < t := by
      rintro row ⟨⟨subIndex, hget⟩, -⟩ hlt
      by_contra hnot
      rw [hnone row (by omega) hlt] at hget
      cases hget
    by_cases hold : start < t
    · obtain ⟨hsome, hex⟩ := hhalf.first hold
      constructor
      · intro subIndex hget
        obtain ⟨⟨row, hlt, hrow⟩, hsub⟩ := hsome subIndex hget
        refine ⟨⟨row, by omega, hrow⟩, ?_⟩
        intro l a
        rw [hsub l a]
        constructor
        · rintro ⟨ha, hl, row, hlt, hrest⟩
          exact ⟨ha, hl, row, by omega, hrest⟩
        · rintro ⟨ha, hl, row, hlt, hrest⟩
          exact ⟨ha, hl, row, hmerged row hrest.1 hlt, hrest⟩
      · rintro ⟨row, hlt, hrow⟩
        exact hex ⟨row, hmerged row hrow hlt, hrow⟩
    · constructor
      · intro subIndex hget
        rw [hhalf.later start (by omega), hnone start (by omega) hstart] at hget
        cases hget
      · rintro ⟨row, hlt, hrow⟩
        have hbefore := hmerged row hrow hlt
        rcases hrow.2 with hlast | hinside
        · omega
        · omega

/-! ### The turns of the loop -/

theorem removeRow_before (h : t < start) (heap : SpanId → Span) (index : Index) (stop k : ℤ) :
  (removeRow heap start stop (-t) index).get? k
    = if k = -t then cleanedRow heap t false ((index.get? (-t)).getD .empty) else index.get? k
  := by
  unfold removeRow
  dsimp only
  rw [Int.neg_neg, if_pos h, get?_erase_or_insert]
  rfl

theorem removeRow_inside (hstart : start ≤ t) (hstop : t ≤ stop) (heap : SpanId → Span)
    (index : Index) :
  removeRow heap start stop (-t) index
    = if t ≠ start ∧ spanAtStart heap start ((index.get? (-t)).getD .empty) = true
          ∧ index.get? (-start) = none then
        moveRow heap start (-start) (moveRow heap start (-t) index)
      else moveRow heap start (-t) index
  := by
  unfold removeRow
  dsimp only
  rw [Int.neg_neg, if_neg (by omega), if_pos hstop]

theorem removeRow_next (h : start ≤ stop) (heap : SpanId → Span) (index : Index) (k : ℤ) :
  (removeRow heap start stop (-(stop + 1)) index).get? k
    = if k = -(stop + 1) then none
      else if k = -start then
        some (insertAll ((index.get? (-start)).getD .empty)
          (spansToBeMoved heap ((index.get? (-(stop + 1))).getD .empty)))
      else index.get? k
  := by
  unfold removeRow
  dsimp only
  rw [Int.neg_neg, if_neg (by omega), if_neg (by omega), if_pos rfl, OrderedMap.get?_erase,
    OrderedMap.get?_insert, show -(stop + 1) + (stop - start + 1) = -start by omega]

theorem removeRow_after (h : start ≤ stop) (ht : stop + 1 < t) (heap : SpanId → Span)
    (index : Index) (k : ℤ) :
  (removeRow heap start stop (-t) index).get? k
    = if k = -t then none
      else if k = -(t - (stop - start + 1)) then some ((index.get? (-t)).getD .empty)
      else index.get? k
  := by
  unfold removeRow
  dsimp only
  rw [Int.neg_neg, if_neg (by omega), if_neg (by omega), if_neg (by omega), OrderedMap.get?_erase,
    OrderedMap.get?_insert, show -t + (stop - start + 1) = -(t - (stop - start + 1)) by omega]

theorem Merged.start_le (hle : start ≤ stop) (h : Merged heap heap' spans' start stop index₀ row) :
  start ≤ row
  := by
  rcases h.2 with hlast | hinside
  · omega
  · exact hinside.1

/-- No row has been merged. -/
theorem mergedRow_empty (h : ¬ ∃ row, row < t ∧ Merged heap heap' spans' start stop index₀ row) :
  MergedRow heap heap' spans' start stop index₀ t .empty
  := by
  intro l a
  apply iff_of_false (fun hnone => nomatch hnone)
  rintro ⟨-, -, row, hlt, hrow, -⟩
  exact h ⟨row, hlt, hrow⟩

theorem HalfRemoved.mergedRow (hhalf : HalfRemoved heap heap' spans' start stop index₀ t index)
    (ht : start < t) :
  MergedRow heap heap' spans' start stop index₀ t ((index.get? (-start)).getD .empty)
  := by
  obtain ⟨hsome, hex⟩ := hhalf.first ht
  cases hget : index.get? (-start) with
  | some subIndex => exact (hsome subIndex hget).2
  | none =>
    apply mergedRow_empty
    intro hmerged
    obtain ⟨subIndex, hsub⟩ := hex hmerged
    rw [hget] at hsub
    cases hsub

/-- The first row after another row has been merged. -/
theorem MergedRow.first (hrow : Merged heap heap' spans' start stop index₀ t)
    (hmerged : MergedRow heap heap' spans' start stop index₀ (t + 1) subIndex)
    (hget : index.get? (-start) = some subIndex) :
  (∀ subIndex, index.get? (-start) = some subIndex →
    (∃ row, row < t + 1 ∧ Merged heap heap' spans' start stop index₀ row)
      ∧ MergedRow heap heap' spans' start stop index₀ (t + 1) subIndex)
    ∧ ((∃ row, row < t + 1 ∧ Merged heap heap' spans' start stop index₀ row) →
      ∃ subIndex, index.get? (-start) = some subIndex)
  := by
  constructor
  · intro sub hsub
    rw [hget, Option.some.injEq] at hsub
    exact ⟨⟨t, by omega, hrow⟩, hsub ▸ hmerged⟩
  · exact fun _ => ⟨subIndex, hget⟩

/-- The first row after a row that is not merged. -/
theorem HalfRemoved.first_next {index' : Index}
    (hhalf : HalfRemoved heap heap' spans' start stop index₀ t index) (ht : start < t)
    (hrow : ¬ Merged heap heap' spans' start stop index₀ t)
    (hget : index'.get? (-start) = index.get? (-start)) :
  (∀ subIndex, index'.get? (-start) = some subIndex →
    (∃ row, row < t + 1 ∧ Merged heap heap' spans' start stop index₀ row)
      ∧ MergedRow heap heap' spans' start stop index₀ (t + 1) subIndex)
    ∧ ((∃ row, row < t + 1 ∧ Merged heap heap' spans' start stop index₀ row) →
      ∃ subIndex, index'.get? (-start) = some subIndex)
  := by
  have hbefore : ∀ row, row < t + 1 → Merged heap heap' spans' start stop index₀ row →
      row < t := by
    intro row hlt hmerged
    have hne : row ≠ t := by
      rintro rfl
      exact hrow hmerged
    omega
  obtain ⟨hsome, hex⟩ := hhalf.first ht
  rw [hget]
  constructor
  · intro subIndex hsub
    obtain ⟨⟨row, hlt, hmerged⟩, hfirst⟩ := hsome subIndex hsub
    refine ⟨⟨row, by omega, hmerged⟩, ?_⟩
    intro l a
    rw [hfirst l a]
    constructor
    · rintro ⟨ha, hl, row, hlt, hrest⟩
      exact ⟨ha, hl, row, by omega, hrest⟩
    · rintro ⟨ha, hl, row, hlt, hrest⟩
      exact ⟨ha, hl, row, hbefore row hlt hrest.1, hrest⟩
  · rintro ⟨row, hlt, hmerged⟩
    exact hex ⟨row, hbefore row hlt hmerged, hmerged⟩

theorem HalfRemoved.step_before (h : RowRemoval heap heap' spans spans' start stop)
    (hindex : Indexed heap spans index₀)
    (hhalf : HalfRemoved heap heap' spans' start stop index₀ t index)
    (hget : index₀.get? (-t) = some subIndex) (ht : t < start) :
  HalfRemoved heap heap' spans' start stop index₀ (t + 1) (removeRow heap' start stop (-t) index)
  := by
  have hnow : index.get? (-t) = some subIndex := (hhalf.later t (le_refl t)).trans hget
  have hfiled := hindex.filed (-t) subIndex hget
  rw [Int.neg_neg] at hfiled
  have hclean := filed_cleanSpanSubIndex h.toRemoval (by
    intro a ha
    rw [h.crosses ha, if_pos ht]) false (fun _ => h.columns) hfiled
  constructor
  · intro row hrow
    rw [removeRow_before ht, if_neg (by omega)]
    exact hhalf.later row (by omega)
  · intro row hstart hrow
    rw [removeRow_before ht]
    by_cases hlast : row = t
    · rw [hlast, if_pos rfl, hnow, Option.getD_some, cleanedRow]
      split
      next hdeleted =>
        refine ⟨by rintro _ ⟨⟩, ?_⟩
        intro a ha htop
        exact absurd htop (hclean.2.mp hdeleted a ha)
      next =>
        constructor
        · rintro _ ⟨⟩
          exact hclean.1
        · exact fun _ _ _ => ⟨_, rfl⟩
    · rw [if_neg (by omega)]
      exact hhalf.before row hstart (by omega)
  · intro row hstart hrow
    omega
  · intro hstart
    omega

theorem HalfRemoved.step_next (h : RowRemoval heap heap' spans spans' start stop)
    (hindex : Indexed heap spans index₀)
    (hhalf : HalfRemoved heap heap' spans' start stop index₀ (stop + 1) index)
    (hget : index₀.get? (-(stop + 1)) = some subIndex) :
  HalfRemoved heap heap' spans' start stop index₀ (stop + 1 + 1)
    (removeRow heap' start stop (-(stop + 1)) index)
  := by
  have hle := h.le
  have hnow := (hhalf.later (stop + 1) (le_refl _)).trans hget
  have hfiled := hindex.filed (-(stop + 1)) subIndex hget
  rw [Int.neg_neg] at hfiled
  have hrow : Merged heap heap' spans' start stop index₀ (stop + 1) := ⟨⟨_, hget⟩, .inl rfl⟩
  constructor
  · intro row hrow
    rw [removeRow_next hle, if_neg (by omega), if_neg (by omega)]
    exact hhalf.later row (by omega)
  · intro row hstart hrow
    rw [removeRow_next hle, if_neg (by omega), if_neg (by omega)]
    exact hhalf.before row hstart (by omega)
  · intro row hstart hrow
    rw [removeRow_next hle, if_neg (show ¬ row + (stop - start + 1) < stop + 1 + 1 by omega)]
    by_cases hlast : row = stop + 1
    · rw [if_pos (by omega)]
    · rw [if_neg (by omega), if_neg (by omega), hhalf.after row hstart (by omega), if_neg (by omega)]
  · intro _
    apply MergedRow.first hrow (h.mergedRow (hhalf.mergedRow (by omega)) hrow hfiled)
    rw [removeRow_next hle, if_neg (by omega), if_pos rfl, hnow, Option.getD_some]

theorem HalfRemoved.step_after (h : RowRemoval heap heap' spans spans' start stop)
    (hhalf : HalfRemoved heap heap' spans' start stop index₀ t index)
    (hget : index₀.get? (-t) = some subIndex) (ht : stop + 1 < t) :
  HalfRemoved heap heap' spans' start stop index₀ (t + 1) (removeRow heap' start stop (-t) index)
  := by
  have hle := h.le
  have hnow := (hhalf.later t (le_refl t)).trans hget
  constructor
  · intro row hrow
    rw [removeRow_after hle ht, if_neg (by omega), if_neg (by omega)]
    exact hhalf.later row (by omega)
  · intro row hstart hrow
    rw [removeRow_after hle ht, if_neg (by omega), if_neg (by omega)]
    exact hhalf.before row hstart (by omega)
  · intro row hstart hrow
    rw [removeRow_after hle ht]
    by_cases hlast : row = t
    · rw [if_pos (by omega), if_neg (by omega)]
    · rw [if_neg (by omega)]
      by_cases hmoved : row + (stop - start + 1) = t
      · rw [if_pos (by omega), if_pos (by omega), hmoved, hnow, hget, Option.getD_some]
      · rw [if_neg (by omega), hhalf.after row hstart (by omega)]
        by_cases hlt : row + (stop - start + 1) < t
        · rw [if_pos hlt, if_pos (by omega)]
        · rw [if_neg hlt, if_neg (by omega)]
  · intro hstart
    apply hhalf.first_next (by omega)
    · rintro ⟨-, hlast | hinside⟩
      · omega
      · omega
    · rw [removeRow_after hle ht, if_neg (by omega), if_neg (by omega)]

theorem HalfRemoved.step_inside (h : RowRemoval heap heap' spans spans' start stop)
    (hindex : Indexed heap spans index₀)
    (hhalf : HalfRemoved heap heap' spans' start stop index₀ t index)
    (hget : index₀.get? (-t) = some subIndex) (hstart : start ≤ t) (hstop : t ≤ stop) :
  HalfRemoved heap heap' spans' start stop index₀ (t + 1) (removeRow heap' start stop (-t) index)
  := by
  have hnow : index.get? (-t) = some subIndex := (hhalf.later t (le_refl t)).trans hget
  have hfiled := hindex.filed (-t) subIndex hget
  rw [Int.neg_neg] at hfiled
  have hatStart := h.spanAtStart_iff hfiled
  have hmove := get?_moveRow heap' start t index
  rw [hnow, Option.getD_some] at hmove
  have hagain := get?_moveRow heap' start start (moveRow heap' start (-t) index)
  have hturn := removeRow_inside hstart hstop heap' index
  rw [hnow, Option.getD_some] at hturn
  -- Only the row that is merged and the first one behind the removed rows change.
  have hother : ∀ k, k ≠ -start → (removeRow heap' start stop (-t) index).get? k
      = if k = -t then none else index.get? k := by
    intro k hk
    rw [hturn]
    split
    · rw [hagain, if_neg (fun hboth => hk hboth.2), if_neg hk, hmove,
        if_neg (fun hboth => hk hboth.2)]
    · rw [hmove, if_neg (fun hboth => hk hboth.2)]
  constructor
  · intro row hrow
    rw [hother _ (by omega), if_neg (by omega)]
    exact hhalf.later row (by omega)
  · intro row hbefore hrow
    rw [hother _ (by omega), if_neg (by omega)]
    exact hhalf.before row hbefore (by omega)
  · intro row hafter hrow
    rw [hother _ (by omega), if_neg (show ¬ row + (stop - start + 1) < t + 1 by omega)]
    split
    next => rfl
    next hne => rw [hhalf.after row hafter (by omega), if_neg (by omega)]
  · intro _
    by_cases hmerge : spanAtStart heap' start subIndex = true
    · have hrow : Merged heap heap' spans' start stop index₀ t :=
        ⟨⟨_, hget⟩, .inr ⟨hstart, hstop, hatStart.mp hmerge⟩⟩
      have hstartIndex : MergedRow heap heap' spans' start stop index₀ t
          (if t = start then .empty else (index.get? (-start)).getD .empty) := by
        split
        next hfirst =>
          apply mergedRow_empty
          rintro ⟨row, hlt, hmerged⟩
          have hle := hmerged.start_le h.le
          omega
        next hfirst => exact hhalf.mergedRow (by omega)
      have hmerged := h.mergedRow hstartIndex hrow hfiled
      have hmoved := hmove (-start)
      rw [if_pos ⟨hmerge, rfl⟩] at hmoved
      by_cases hnew : t ≠ start ∧ spanAtStart heap' start subIndex = true
          ∧ index.get? (-start) = none
      · -- The loop comes to the new row, too, and finds the spans that it has moved there.
        rw [if_pos hnew] at hturn
        generalize insertAll (if t = start then .empty else (index.get? (-start)).getD .empty)
          (spansToBeMoved heap' subIndex) = moved at hmerged hmoved
        rw [hmoved, Option.getD_some] at hagain
        have hfound : spanAtStart heap' start moved = true := by
          obtain ⟨a, ha, hcrosses, htop⟩ := hatStart.mp hmerge
          have hentry := (hmerged _ a).mpr ⟨ha, rfl, t, by omega, hrow, hcrosses⟩
          apply List.any_eq_true.mpr
          refine ⟨_, OrderedMap.get?_eq_some_iff.mp hentry, ?_⟩
          rw [Bool.and_eq_true, Bool.not_eq_true', decide_eq_true_eq]
          exact ⟨((h.live a).mp ha).2, htop⟩
        have hfirst := hagain (-start)
        rw [if_pos ⟨hfound, rfl⟩, if_pos rfl, ← hturn] at hfirst
        refine MergedRow.first hrow ?_ hfirst
        intro l a
        rw [get?_insertAll, get?_spansToBeMoved, hmerged l a, OrderedMap.get?_empty]
        simp only [reduceCtorEq, and_false, or_false]
        exact and_iff_left_of_imp fun hboth => ((h.live a).mp hboth.1).2
      · rw [if_neg hnew] at hturn
        rw [← hturn] at hmoved
        exact MergedRow.first hrow hmerged hmoved
    · have hrow : ¬ Merged heap heap' spans' start stop index₀ t := by
        rintro ⟨-, hlast | ⟨-, -, hex⟩⟩
        · omega
        · exact hmerge (hatStart.mpr hex)
      rw [if_neg (fun hall => hmerge hall.2.1)] at hturn
      have hfirst := hmove (-start)
      rw [if_neg (fun hboth => hmerge hboth.1), ← hturn] at hfirst
      by_cases ht : start = t
      · rw [if_pos (by omega)] at hfirst
        constructor
        · intro sub hsub
          rw [hfirst] at hsub
          cases hsub
        · rintro ⟨row, hlt, hmerged⟩
          have hle := hmerged.start_le h.le
          obtain rfl : row = t := by omega
          exact absurd hmerged hrow
      · rw [if_neg (by omega)] at hfirst
        exact hhalf.first_next (by omega) hrow hfirst

/-- One turn of the loop. -/
theorem HalfRemoved.step (h : RowRemoval heap heap' spans spans' start stop)
    (hindex : Indexed heap spans index₀)
    (hhalf : HalfRemoved heap heap' spans' start stop index₀ t index)
    (hget : index₀.get? (-t) = some subIndex) :
  HalfRemoved heap heap' spans' start stop index₀ (t + 1) (removeRow heap' start stop (-t) index)
  := by
  by_cases hbefore : t < start
  · exact hhalf.step_before h hindex hget hbefore
  · by_cases hinside : t ≤ stop
    · exact hhalf.step_inside h hindex hget (by omega) hinside
    · by_cases hnext : t = stop + 1
      · subst hnext
        exact hhalf.step_next h hindex hget
      · exact hhalf.step_after h hget (by omega)

/-! ### The loop -/

theorem HalfRemoved.removeRows (h : RowRemoval heap heap' spans spans' start stop)
    (hindex : Indexed heap spans index₀) {keys : List ℤ} (hsorted : keys.Pairwise (· > ·))
    (hkeys : ∀ k ∈ keys, ∃ subIndex, index₀.get? k = some subIndex)
    (hlater : ∀ row, t ≤ row → -row ∉ keys → index₀.get? (-row) = none)
    (hfirst : ∀ k ∈ keys, t ≤ -k)
    (hhalf : HalfRemoved heap heap' spans' start stop index₀ t index) :
  ∃ t', (∀ row, t' ≤ row → index₀.get? (-row) = none)
    ∧ HalfRemoved heap heap' spans' start stop index₀ t'
      (QSpanCollection.removeRows heap' start stop keys index)
  := by
  induction keys generalizing t index with
  | nil => exact ⟨t, fun row hrow => hlater row hrow List.not_mem_nil, hhalf⟩
  | cons k keys ih =>
    rw [List.pairwise_cons] at hsorted
    obtain ⟨subIndex, hget⟩ := hkeys k List.mem_cons_self
    have hle := hfirst k List.mem_cons_self
    have hskip := hhalf.skip h hindex hle (by
      intro row hrow hlt
      apply hlater row hrow
      intro hmem
      rcases List.mem_cons.mp hmem with hk | hmem
      · omega
      · have hgt := hsorted.1 _ hmem
        omega)
    have hstep := hskip.step h hindex (by rwa [Int.neg_neg])
    rw [Int.neg_neg] at hstep
    apply ih hsorted.2 (fun l hl => hkeys l (List.mem_cons_of_mem k hl)) _ _ hstep
    · intro row hrow hnot
      apply hlater row (by omega)
      intro hmem
      rcases List.mem_cons.mp hmem with hk | hmem
      · omega
      · exact hnot hmem
    · intro l hl
      have hgt := hsorted.1 l hl
      omega

/-- A row in front of finitely many rows. -/
theorem exists_row_before (keys : List ℤ) (start : ℤ) :
  ∃ t, t ≤ start ∧ ∀ k ∈ keys, t ≤ -k
  := by
  induction keys with
  | nil => exact ⟨start, le_refl start, fun _ hk => absurd hk List.not_mem_nil⟩
  | cons k keys ih =>
    obtain ⟨t, hstart, hkeys⟩ := ih
    refine ⟨min t (-k), by omega, ?_⟩
    intro l hl
    rcases List.mem_cons.mp hl with rfl | hl
    · omega
    · have hle := hkeys l hl
      omega

/-- Nothing has been removed. -/
theorem halfRemoved_start (h : RowRemoval heap heap' spans spans' start stop)
    (hindex : Indexed heap spans index₀) (ht : t ≤ start)
    (hfirst : ∀ row, row < t → index₀.get? (-row) = none) :
  HalfRemoved heap heap' spans' start stop index₀ t index₀
  := by
  constructor
  · exact fun _ _ => rfl
  · intro row hstart hrow
    constructor
    · intro subIndex hget
      rw [hfirst row hrow] at hget
      cases hget
    · intro a ha htop
      have hget := hindex.starts a ((h.live a).mp ha).1
      rwa [← h.top_before ha (by omega), htop] at hget
  · intro row hstart hrow
    omega
  · intro hstart
    omega

/-- All rows have been removed. -/
theorem HalfRemoved.indexed (h : RowRemoval heap heap' spans spans' start stop)
    (hindex : Indexed heap spans index₀) (ht : start < t)
    (hnone : ∀ row, t ≤ row → index₀.get? (-row) = none)
    (hhalf : HalfRemoved heap heap' spans' start stop index₀ t index) :
  Indexed heap' spans' index
  := by
  have hle := h.le
  have hafter : ∀ row, start < row →
      index.get? (-row) = index₀.get? (-(row + (stop - start + 1))) := by
    intro row hrow
    by_cases hlt : row < t
    · rw [hhalf.after row hrow hlt]
      split
      next => rfl
      next hnot => exact (hnone _ (by omega)).symm
    · rw [hhalf.later row (by omega), hnone row (by omega), hnone _ (by omega)]
  have hrow : ∀ {row}, (∃ subIndex, index₀.get? (-row) = some subIndex) → row < t := by
    rintro row ⟨subIndex, hget⟩
    by_contra hnot
    rw [hnone row (by omega)] at hget
    cases hget
  obtain ⟨hsome, hex⟩ := hhalf.first ht
  constructor
  · intro a ha
    have hstart := hindex.starts a ((h.live a).mp ha).1
    have hnonempty : (heap a).top ≤ (heap a).bottom :=
      (h.before.nonempty a ((h.live a).mp ha).1).1
    by_cases hbefore : (heap' a).top < start
    · exact (hhalf.before _ hbefore (by omega)).2 a ha rfl
    · have htop := h.top ha
      by_cases hfirst : (heap' a).top = start
      · rw [hfirst]
        apply hex
        refine ⟨(heap a).top, hrow hstart, hstart, ?_⟩
        by_cases hnext : (heap a).top = stop + 1
        · exact .inl hnext
        · refine .inr ⟨?_, ?_, a, ha, ⟨le_refl _, hnonempty⟩, hfirst⟩
          · grind
          · grind
      · rw [hafter _ (by omega)]
        have hmoved : (heap' a).top + (stop - start + 1) = (heap a).top := by grind
        rwa [hmoved]
  · intro k subIndex hget
    have hk : k = -(-k) := (Int.neg_neg k).symm
    rw [hk] at hget
    generalize -k = row at hget
    by_cases hbefore : row < start
    · by_cases hlt : row < t
      · exact (hhalf.before row hbefore hlt).1 subIndex hget
      · omega
    · by_cases hfirst : row = start
      · subst hfirst
        obtain ⟨⟨r, hr, hmergedR⟩, hmerged⟩ := hsome subIndex hget
        intro l a
        rw [hmerged l a]
        apply and_congr_right
        intro ha
        apply and_congr_right
        intro _
        constructor
        · rintro ⟨r', -, hmerged', hcrosses⟩
          exact h.crosses_start hmerged' ha hcrosses
        · intro hcrosses
          have hstart := hindex.starts a ((h.live a).mp ha).1
          have hbehind := (h.crosses ha row).mp hcrosses
          rw [if_neg (Int.lt_irrefl row), show row + (stop - row + 1) = stop + 1 by omega]
            at hbehind
          have htop : (heap a).top ≤ stop + 1 := hbehind.1
          have hbottom : stop + 1 ≤ (heap a).bottom := hbehind.2
          -- The span starts in the removed rows or behind them, or covers all of them.
          by_cases hstarts : row ≤ (heap a).top
          · refine ⟨(heap a).top, hrow hstart, ⟨hstart, ?_⟩, le_refl _, by omega⟩
            by_cases hnext : (heap a).top = stop + 1
            · exact .inl hnext
            · refine .inr ⟨hstarts, by omega, a, ha, ⟨le_refl _, by omega⟩, ?_⟩
              rw [h.top ha, if_neg (by omega), if_pos (by omega)]
          · have hle' := hmergedR.start_le hle
            refine ⟨r, hr, hmergedR, by omega, ?_⟩
            rcases hmergedR.2 with hlast | hinside
            · omega
            · omega
      · rw [hafter row (by omega)] at hget
        have hfiled := hindex.filed _ subIndex hget
        rw [Int.neg_neg] at hfiled
        intro l a
        rw [hfiled l a]
        have hlive : a ∈ spans → Crosses heap (row + (stop - start + 1)) a → a ∈ spans' := by
          intro ha hcrosses
          have hbottom := hcrosses.2
          exact h.survives a ha (by omega)
        constructor
        · rintro ⟨ha, hl, hcrosses⟩
          have ha' := hlive ha hcrosses
          rw [← h.columns a ha'] at hl
          refine ⟨ha', hl, (h.crosses ha' row).mpr ?_⟩
          rw [if_neg hbefore]
          exact hcrosses
        · rintro ⟨ha, hl, hcrosses⟩
          rw [h.columns a ha] at hl
          have hcrosses₀ := (h.crosses ha row).mp hcrosses
          rw [if_neg hbefore] at hcrosses₀
          exact ⟨((h.live a).mp ha).1, hl, hcrosses₀⟩

/-- The loop keeps the index. -/
theorem Indexed.removeRows (h : RowRemoval heap heap' spans spans' start stop)
    (hindex : Indexed heap spans index₀) :
  Indexed heap' spans' (QSpanCollection.removeRows heap' start stop index₀.keys.reverse index₀)
  := by
  obtain ⟨t, ht, hkeys⟩ := exists_row_before index₀.keys start
  have hnone : ∀ row, -row ∉ index₀.keys.reverse → index₀.get? (-row) = none := by
    intro row hnot
    rw [List.mem_reverse] at hnot
    exact OrderedMap.get?_eq_none_iff.mpr hnot
  have hstart := halfRemoved_start h hindex ht (by
    intro row hrow
    apply hnone row
    intro hmem
    have hle := hkeys _ (List.mem_reverse.mp hmem)
    omega)
  obtain ⟨t', hlast, hhalf⟩ := hstart.removeRows h hindex
    (List.pairwise_reverse.mpr index₀.sorted_keys)
    (fun k hk => OrderedMap.mem_keys_iff.mp (List.mem_reverse.mp hk)) (fun row _ => hnone row)
    (fun k hk => hkeys k (List.mem_reverse.mp hk))
  have hle : t' ≤ max t' (start + 1) := by omega
  have hend := hhalf.skip h hindex hle (fun row hrow _ => hlast row hrow)
  exact hend.indexed h hindex (by omega) (fun row hrow => hlast row (by omega))

end Loop

end QSpanCollection
