import BobUI.Library.Grid
import BobUI.Widgets.ItemViews.SpanCollection

/-!
# The index of the spans

The spans cover disjoint rectangles, and the index has each of them in every row that it crosses
and for which there is an entry; there is one for every row where a span starts.  Then `spanAt`
finds the span of a cell.  Adding a span and changing the size of one keep the index.
-/

namespace QSpanCollection

/-- The cells of a span. -/
def Span.rect (s : Span) : Rect where
  rows := ⟨s.top, s.bottom⟩
  columns := ⟨s.left, s.right⟩

/-- The spans are not empty, and no two of them have a cell in common. -/
structure Separate (heap : SpanId → Span) (spans : List SpanId) : Prop where
  nonempty : ∀ a ∈ spans, (heap a).rect.Nonempty
  disjoint : ∀ a ∈ spans, ∀ b ∈ spans, (heap a).rect.Overlaps (heap b).rect → a = b

/-- The spans of a row are those that cross it. -/
def Filed (heap : SpanId → Span) (spans : List SpanId) (row : ℤ) (subIndex : SubIndex) : Prop :=
  ∀ l a, subIndex.get? l = some a
    ↔ a ∈ spans ∧ l = -(heap a).left ∧ (heap a).top ≤ row ∧ row ≤ (heap a).bottom

/-- The index of the spans. -/
structure Indexed (heap : SpanId → Span) (spans : List SpanId) (index : Index) : Prop where
  starts : ∀ a ∈ spans, ∃ subIndex, index.get? (-(heap a).top) = some subIndex
  filed : ∀ k subIndex, index.get? k = some subIndex → Filed heap spans (-k) subIndex

variable {heap : SpanId → Span} {spans : List SpanId} {index : Index}

/-- Spans that cross a row and start in one column are the same. -/
theorem Separate.eq_of_crosses (h : Separate heap spans) {a b : SpanId} (ha : a ∈ spans)
    (hb : b ∈ spans) {row : ℤ} (hleft : (heap a).left = (heap b).left)
    (hta : (heap a).top ≤ row) (hba : row ≤ (heap a).bottom) (htb : (heap b).top ≤ row)
    (hbb : row ≤ (heap b).bottom) :
  a = b
  := by
  have hwa := (h.nonempty a ha).2
  have hwb := (h.nonempty b hb).2
  apply h.disjoint a ha b hb
  refine ⟨(heap a).left, row, ⟨⟨le_refl _, hwa⟩, hta, hba⟩, ⟨?_, ?_⟩, htb, hbb⟩
  · exact le_of_eq hleft.symm
  · rw [hleft]
    exact hwb

/-- The row of the index that a row falls in, and that every span that covers the row crosses. -/
theorem Indexed.lowerBound_row (h : Indexed heap spans index) {y k : ℤ}
    (hk : index.lowerBound (-y) = some k) {a : SpanId} (ha : a ∈ spans)
    (htop : (heap a).top ≤ y) :
  (heap a).top ≤ -k
  := by
  obtain ⟨-, -, hleast⟩ := OrderedMap.lowerBound_eq_some hk
  obtain ⟨subIndex, hstart⟩ := h.starts a ha
  have hle := hleast _ (OrderedMap.mem_keys_iff.mpr ⟨subIndex, hstart⟩) (Int.neg_le_neg htop)
  omega

/-! ### Finding the span of a cell -/

variable {c : QSpanCollection} {span : SpanId} {subIndex : SubIndex} {keys : List ℤ}

theorem spanAt_eq {x y k l : ℤ} {a : SpanId} (hk : c.index.lowerBound (-y) = some k)
    (hsub : c.index.get? k = some subIndex) (hl : subIndex.lowerBound (-x) = some l)
    (ha : subIndex.get? l = some a) :
  c.spanAt x y = if x ≤ (c.heap a).right ∧ y ≤ (c.heap a).bottom then some a else none
  := by
  unfold spanAt
  rw [hk]
  dsimp only
  rw [hsub, Option.getD_some, hl]
  dsimp only
  rw [ha]

/-- `spanAt` finds the span that covers a cell, and nothing where none does. -/
theorem spanAt_iff (h : Separate c.heap c.spans) (hindex : Indexed c.heap c.spans c.index)
    (x y : ℤ) (a : SpanId) :
  c.spanAt x y = some a ↔ a ∈ c.spans ∧ (c.heap a).rect.contains x y
  := by
  constructor
  · intro hat
    cases hk : c.index.lowerBound (-y) with
    | none => rw [spanAt, hk] at hat; cases hat
    | some k =>
      obtain ⟨hkey, hky, -⟩ := OrderedMap.lowerBound_eq_some hk
      obtain ⟨subIndex, hsub⟩ := OrderedMap.mem_keys_iff.mp hkey
      cases hl : subIndex.lowerBound (-x) with
      | none =>
        rw [spanAt, hk] at hat
        dsimp only at hat
        rw [hsub, Option.getD_some, hl] at hat
        cases hat
      | some l =>
        obtain ⟨hcolumn, hlx, -⟩ := OrderedMap.lowerBound_eq_some hl
        obtain ⟨b, hb⟩ := OrderedMap.mem_keys_iff.mp hcolumn
        obtain ⟨hmem, hleft, htop, hbottom⟩ := (hindex.filed k subIndex hsub l b).mp hb
        rw [spanAt_eq hk hsub hl hb] at hat
        split at hat
        next hinside =>
          cases hat
          refine ⟨hmem, ⟨?_, hinside.1⟩, ?_, hinside.2⟩
          · change (c.heap a).left ≤ x
            omega
          · change (c.heap a).top ≤ y
            omega
        next => cases hat
  · rintro ⟨hmem, ⟨hleft, hright⟩, htop, hbottom⟩
    change (c.heap a).left ≤ x at hleft
    change x ≤ (c.heap a).right at hright
    change (c.heap a).top ≤ y at htop
    change y ≤ (c.heap a).bottom at hbottom
    obtain ⟨startIndex, hstart⟩ := hindex.starts a hmem
    cases hk : c.index.lowerBound (-y) with
    | none =>
      have hlt := OrderedMap.lowerBound_eq_none.mp hk _
        (OrderedMap.mem_keys_iff.mpr ⟨startIndex, hstart⟩)
      omega
    | some k =>
      obtain ⟨hkey, hky, -⟩ := OrderedMap.lowerBound_eq_some hk
      obtain ⟨subIndex, hsub⟩ := OrderedMap.mem_keys_iff.mp hkey
      have hrow := hindex.lowerBound_row hk hmem htop
      have ha := (hindex.filed k subIndex hsub _ a).mpr ⟨hmem, rfl, hrow, by omega⟩
      have hcolumn := OrderedMap.mem_keys_iff.mpr ⟨a, ha⟩
      cases hl : subIndex.lowerBound (-x) with
      | none =>
        have hlt := OrderedMap.lowerBound_eq_none.mp hl _ hcolumn
        omega
      | some l =>
        obtain ⟨hkey', hlx, hleast⟩ := OrderedMap.lowerBound_eq_some hl
        obtain ⟨b, hb⟩ := OrderedMap.mem_keys_iff.mp hkey'
        obtain ⟨hmem', hleft', htop', hbottom'⟩ := (hindex.filed k subIndex hsub l b).mp hb
        have hbefore := hleast _ hcolumn (by omega)
        have hwidth : (c.heap b).left ≤ (c.heap b).right := (h.nonempty b hmem').2
        -- The span that starts last before the column crosses the row of the index, too.
        have heq : a = b := by
          apply h.disjoint a hmem b hmem'
          refine ⟨-l, -k, ⟨⟨?_, ?_⟩, hrow, ?_⟩, ⟨?_, ?_⟩, htop', hbottom'⟩
          · change (c.heap a).left ≤ -l
            omega
          · change -l ≤ (c.heap a).right
            omega
          · change -k ≤ (c.heap a).bottom
            omega
          · change (c.heap b).left ≤ -l
            omega
          · change -l ≤ (c.heap b).right
            omega
        subst heq
        rw [spanAt_eq hk hsub hl hb, if_pos ⟨hright, hbottom⟩]

/-! ### Adding a span -/

theorem get?_insertSpan (h : keys.Pairwise (· > ·)) (index : Index) (k : ℤ) :
  (insertSpan heap span keys index).get? k
    = if k ∈ keys ∧ -k ≤ (heap span).bottom then
        (index.get? k).map (·.insert (-(heap span).left) span)
      else index.get? k
  := by
  induction keys generalizing index with
  | nil => rw [insertSpan, if_neg (fun hboth => List.not_mem_nil hboth.1)]
  | cons k₀ keys ih =>
    rw [List.pairwise_cons] at h
    rw [insertSpan]
    by_cases hk₀ : -k₀ ≤ (heap span).bottom
    · rw [if_pos hk₀, ih h.2, OrderedMap.get?_modify]
      by_cases hk : k = k₀
      · subst hk
        have hnot : k ∉ keys := fun hmem => Int.lt_irrefl k (h.1 k hmem)
        rw [if_neg (fun hboth => hnot hboth.1), if_pos rfl,
          if_pos ⟨List.mem_cons_self, hk₀⟩]
      · simp only [hk, if_false, List.mem_cons, false_or]
    · rw [if_neg hk₀, if_neg]
      rintro ⟨hmem, hk⟩
      rcases List.mem_cons.mp hmem with rfl | hmem
      · exact hk₀ hk
      · have hlt := h.1 k hmem
        omega

/-- The spans of an earlier row that go on to the row `top` are those that cross it, where no
span starts in between. -/
theorem filed_splitSubIndex {row top : ℤ} (h : Filed heap spans row subIndex) (hrow : row ≤ top)
    (hstarts : ∀ a ∈ spans, (heap a).top ≤ top → (heap a).top ≤ row) :
  Filed heap spans top (splitSubIndex heap top subIndex)
  := by
  intro l a
  have hentry : ∀ e ∈ subIndex.entries, e.1 = -(heap e.2).left := fun e he =>
    ((h e.1 e.2).mp (OrderedMap.get?_eq_some_iff.mpr he)).2.1
  have hfold := OrderedMap.get?_foldl_insert (fun e : ℤ × SpanId => -(heap e.2).left) Prod.snd
    (subIndex.entries.filter fun e => decide (top ≤ (heap e.2).bottom)) .empty (by
      intro a ha b hb hkey
      have hmemA := (List.mem_filter.mp ha).1
      have hmemB := (List.mem_filter.mp hb).1
      rw [subIndex.eq_of_key_eq hmemA hmemB (by rw [hentry a hmemA, hentry b hmemB, hkey])])
    l a
  rw [List.foldl_filter] at hfold
  simp only [decide_eq_true_eq] at hfold
  rw [splitSubIndex, hfold, OrderedMap.get?_empty]
  constructor
  · rintro (⟨⟨k, b⟩, he, hkey, hb⟩ | ⟨-, hnone⟩)
    · obtain ⟨hmem, hbottom⟩ := List.mem_filter.mp he
      cases hb
      obtain ⟨hspan, -, htop, -⟩ := (h k b).mp (OrderedMap.get?_eq_some_iff.mpr hmem)
      exact ⟨hspan, hkey.symm, Int.le_trans htop hrow, of_decide_eq_true hbottom⟩
    · cases hnone
  · rintro ⟨hspan, rfl, htop, hbottom⟩
    have hbefore := hstarts a hspan htop
    have ha := (h _ a).mpr ⟨hspan, rfl, hbefore, Int.le_trans hrow hbottom⟩
    refine .inl ⟨(-(heap a).left, a), ?_, rfl, rfl⟩
    exact List.mem_filter.mpr ⟨OrderedMap.get?_eq_some_iff.mp ha, decide_eq_true hbottom⟩

/-- The new entry for a row. -/
theorem Indexed.insert_row (h : Indexed heap spans index) (row : ℤ)
    (hsub : Filed heap spans row subIndex) :
  Indexed heap spans (index.insert (-row) subIndex)
  := by
  constructor
  · intro a ha
    rw [OrderedMap.get?_insert]
    split
    · exact ⟨subIndex, rfl⟩
    · exact h.starts a ha
  · intro k sub hget
    rw [OrderedMap.get?_insert] at hget
    split at hget
    next hk =>
      cases hget
      rwa [hk, Int.neg_neg]
    next => exact h.filed k sub hget

/-- After `addSpan` has seen to it that the row has an entry, the span is inserted. -/
theorem Indexed.insertSpan (h : Indexed heap spans index) (hsep : Separate heap (spans ++ [span]))
    (hsorted : keys.Pairwise (· > ·))
    (hkeys : ∀ k, k ∈ keys ↔ k ∈ index.keys ∧ k ≤ -(heap span).top)
    (hstart : ∃ subIndex, index.get? (-(heap span).top) = some subIndex) :
  Indexed heap (spans ++ [span]) (insertSpan heap span keys index)
  := by
  have hlast : span ∈ spans ++ [span] := List.mem_append_right _ List.mem_cons_self
  constructor
  · intro a ha
    obtain ⟨subIndex, hget⟩ : ∃ subIndex, index.get? (-(heap a).top) = some subIndex := by
      rcases List.mem_append.mp ha with ha | ha
      · exact h.starts a ha
      · rw [List.mem_singleton.mp ha]
        exact hstart
    rw [get?_insertSpan hsorted, hget]
    split
    · exact ⟨_, rfl⟩
    · exact ⟨_, rfl⟩
  · intro k subIndex hget l a
    rw [get?_insertSpan hsorted] at hget
    split at hget
    next hrow =>
      obtain ⟨sub, hsub, rfl⟩ := Option.map_eq_some_iff.mp hget
      have hcrosses := ((hkeys k).mp hrow.1).2
      rw [OrderedMap.get?_insert]
      split
      next hl =>
        rw [Option.some.injEq]
        constructor
        · rintro rfl
          exact ⟨hlast, hl, by omega, hrow.2⟩
        · rintro ⟨hmem, hleft, htop, hbottom⟩
          exact hsep.eq_of_crosses hlast hmem (by omega) (by omega) hrow.2 htop hbottom
      next hl =>
        rw [h.filed k sub hsub l a, List.mem_append, List.mem_singleton]
        constructor
        · rintro ⟨hmem, hrest⟩
          exact ⟨.inl hmem, hrest⟩
        · rintro ⟨hmem | rfl, hrest⟩
          · exact ⟨hmem, hrest⟩
          · exact absurd hrest.1 hl
    next hrow =>
      rw [h.filed k subIndex hget l a, List.mem_append, List.mem_singleton]
      constructor
      · rintro ⟨hmem, hrest⟩
        exact ⟨.inl hmem, hrest⟩
      · rintro ⟨hmem | rfl, hleft, htop, hbottom⟩
        · exact ⟨hmem, hleft, htop, hbottom⟩
        · refine absurd ⟨(hkeys k).mpr ⟨?_, by omega⟩, hbottom⟩ hrow
          exact OrderedMap.mem_keys_iff.mpr ⟨subIndex, hget⟩

/-- The index in which `addSpan` inserts the span. -/
def startedIndex (c : QSpanCollection) (span : SpanId) : Index :=
  match c.index.lowerBound (-(c.heap span).top) with
  | none => c.index.insert (-(c.heap span).top) .empty
  | some k =>
    if k ≠ -(c.heap span).top then
      c.index.insert (-(c.heap span).top)
        (splitSubIndex c.heap (c.heap span).top ((c.index.get? k).getD .empty))
    else c.index

theorem addSpan_index (c : QSpanCollection) (span : SpanId) :
  (c.addSpan span).index = insertSpan c.heap span
    ((startedIndex c span).keysDown (-(c.heap span).top)) (startedIndex c span)
  := rfl

theorem indexed_startedIndex (h : Indexed c.heap c.spans c.index) (span : SpanId) :
  Indexed c.heap c.spans (startedIndex c span)
    ∧ ∃ subIndex, (startedIndex c span).get? (-(c.heap span).top) = some subIndex
  := by
  unfold startedIndex
  cases hk : c.index.lowerBound (-(c.heap span).top) with
  | none =>
    dsimp only
    have hlt := OrderedMap.lowerBound_eq_none.mp hk
    constructor
    · apply h.insert_row
      intro l a
      rw [OrderedMap.get?_empty]
      apply iff_of_false (fun hnone => nomatch hnone)
      rintro ⟨ha, -, htop, -⟩
      have hrow := hlt _ (OrderedMap.mem_keys_iff.mpr (h.starts a ha))
      omega
    · exact ⟨.empty, by rw [OrderedMap.get?_insert, if_pos rfl]⟩
  | some k =>
    dsimp only
    obtain ⟨hkey, hle, hleast⟩ := OrderedMap.lowerBound_eq_some hk
    obtain ⟨subIndex, hsub⟩ := OrderedMap.mem_keys_iff.mp hkey
    split
    next hne =>
      rw [hsub, Option.getD_some]
      constructor
      · apply h.insert_row
        apply filed_splitSubIndex (h.filed k subIndex hsub) (by omega)
        intro a ha htop
        exact h.lowerBound_row hk ha htop
      · exact ⟨_, by rw [OrderedMap.get?_insert, if_pos rfl]⟩
    next heq =>
      rw [not_not] at heq
      exact ⟨h, subIndex, heq ▸ hsub⟩

/-- `addSpan` keeps the index. -/
theorem indexed_addSpan (h : Indexed c.heap c.spans c.index)
    (hsep : Separate c.heap (c.spans ++ [span])) :
  Indexed c.heap (c.spans ++ [span]) (c.addSpan span).index
  := by
  obtain ⟨hstarted, hstart⟩ := indexed_startedIndex h span
  rw [addSpan_index]
  exact hstarted.insertSpan hsep (OrderedMap.sorted_keysDown _ _)
    (fun k => OrderedMap.mem_keysDown) hstart

/-! ### Changing a span -/

/-- A row that is erased or gets new spans. -/
theorem get?_erase_or_insert (b : Bool) (index : Index) (k₀ : ℤ) (subIndex : SubIndex) (k : ℤ) :
  (if b then index.erase k₀ else index.insert k₀ subIndex).get? k
    = if k = k₀ then (if b then none else some subIndex) else index.get? k
  := by
  cases b
  · exact OrderedMap.get?_insert index k₀ subIndex k
  · exact OrderedMap.get?_erase index k₀ k

/-- The spans of a row without one that leaves it. -/
def leftRow (heap : SpanId → Span) (span : SpanId) (subIndex : Option SubIndex) : SubIndex :=
  (subIndex.getD .empty).erase (-(heap span).left)

theorem get?_removeSpan {last : ℤ} (h : keys.Pairwise (· > ·)) (index : Index) (k : ℤ) :
  (removeSpan heap span last keys index).get? k
    = if k ∈ keys ∧ -k ≤ last ∧ (heap span).bottom < -k then
        if (leftRow heap span (index.get? k)).isEmpty then none
        else some (leftRow heap span (index.get? k))
      else index.get? k
  := by
  induction keys generalizing index with
  | nil => rw [removeSpan, if_neg (fun hboth => List.not_mem_nil hboth.1)]
  | cons k₀ keys ih =>
    rw [List.pairwise_cons] at h
    rw [removeSpan]
    by_cases hlast : -k₀ ≤ last
    · rw [if_pos hlast]
      by_cases hbottom : (heap span).bottom < -k₀
      · rw [if_pos hbottom, ih h.2, ← leftRow, get?_erase_or_insert]
        by_cases hk : k = k₀
        · subst hk
          have hnot : k ∉ keys := fun hmem => Int.lt_irrefl k (h.1 k hmem)
          have hall : k ∈ k :: keys ∧ -k ≤ last ∧ (heap span).bottom < -k :=
            ⟨List.mem_cons_self, hlast, hbottom⟩
          rw [if_neg (fun hboth => hnot hboth.1), if_pos (Eq.refl k), if_pos hall]
        · simp only [List.mem_cons, hk, false_or, if_false]
      · rw [if_neg hbottom, ih h.2]
        by_cases hk : k = k₀
        · subst hk
          rw [if_neg (fun hboth => hbottom hboth.2.2), if_neg (fun hboth => hbottom hboth.2.2)]
        · simp only [List.mem_cons, hk, false_or]
    · rw [if_neg hlast, if_neg]
      rintro ⟨hmem, hk, -⟩
      rcases List.mem_cons.mp hmem with rfl | hmem
      · exact hlast hk
      · have hlt := h.1 k hmem
        omega

section Resize

variable {heap₀ : SpanId → Span} {sp : SpanId}

/-- The size of one span is changed. -/
structure Resized (heap₀ heap : SpanId → Span) (sp : SpanId) : Prop where
  other : ∀ a, a ≠ sp → heap a = heap₀ a
  top : (heap sp).top = (heap₀ sp).top
  left : (heap sp).left = (heap₀ sp).left

theorem Resized.top_eq (h : Resized heap₀ heap sp) (a : SpanId) :
  (heap a).top = (heap₀ a).top
  := by
  by_cases ha : a = sp
  · rw [ha, h.top]
  · rw [h.other a ha]

theorem Resized.left_eq (h : Resized heap₀ heap sp) (a : SpanId) :
  (heap a).left = (heap₀ a).left
  := by
  by_cases ha : a = sp
  · rw [ha, h.left]
  · rw [h.other a ha]

/-- A row that the span crosses after the change just if it did before. -/
theorem Resized.filed (h : Resized heap₀ heap sp) {row : ℤ} {subIndex : SubIndex}
    (hfiled : Filed heap₀ spans row subIndex)
    (hrow : (heap sp).top ≤ row → (row ≤ (heap sp).bottom ↔ row ≤ (heap₀ sp).bottom)) :
  Filed heap spans row subIndex
  := by
  intro l a
  rw [hfiled l a, h.top_eq, h.left_eq]
  by_cases ha : a = sp
  · subst ha
    rw [h.top] at hrow
    constructor
    · rintro ⟨hmem, hleft, htop, hbottom⟩
      exact ⟨hmem, hleft, htop, (hrow htop).mpr hbottom⟩
    · rintro ⟨hmem, hleft, htop, hbottom⟩
      exact ⟨hmem, hleft, htop, (hrow htop).mp hbottom⟩
  · rw [h.other a ha]

theorem Indexed.grow (h : Indexed heap₀ spans index) (hnew : Resized heap₀ heap sp)
    (hsep : Separate heap spans) (hsp : sp ∈ spans)
    (hnonempty : (heap₀ sp).top ≤ (heap₀ sp).bottom)
    (hbottom : (heap₀ sp).bottom < (heap sp).bottom) {k₀ : ℤ}
    (hk₀ : index.lowerBound (-(heap₀ sp).bottom) = some k₀) :
  Indexed heap spans (QSpanCollection.insertSpan heap sp (index.keysDown k₀) index)
  := by
  obtain ⟨-, hle, hleast⟩ := OrderedMap.lowerBound_eq_some hk₀
  constructor
  · intro a ha
    obtain ⟨subIndex, hget⟩ := h.starts a ha
    rw [get?_insertSpan (OrderedMap.sorted_keysDown _ _), hnew.top_eq, hget]
    split
    · exact ⟨_, rfl⟩
    · exact ⟨_, rfl⟩
  · intro k subIndex hget
    rw [get?_insertSpan (OrderedMap.sorted_keysDown _ _)] at hget
    simp only [OrderedMap.mem_keysDown] at hget
    split at hget
    next hrow =>
      obtain ⟨sub, hsub, rfl⟩ := Option.map_eq_some_iff.mp hget
      have htop : (heap sp).top ≤ -k := by
        have hstart := hleast _ (OrderedMap.mem_keys_iff.mpr (h.starts sp hsp)) (by
          omega)
        rw [hnew.top]
        omega
      intro l a
      rw [OrderedMap.get?_insert]
      split
      next hl =>
        rw [Option.some.injEq]
        constructor
        · rintro rfl
          exact ⟨hsp, hl, htop, hrow.2⟩
        · rintro ⟨hmem, hleft, hta, hba⟩
          exact hsep.eq_of_crosses hsp hmem (by omega) htop hrow.2 hta hba
      next hl =>
        rw [h.filed k sub hsub l a, hnew.top_eq, hnew.left_eq]
        by_cases ha : a = sp
        · subst ha
          rw [← hnew.left]
          exact iff_of_false (fun hboth => hl hboth.2.1) (fun hboth => hl hboth.2.1)
        · rw [hnew.other a ha]
    next hrow =>
      apply hnew.filed (h.filed k subIndex hget)
      intro htop
      have hkey : k ∈ index.keys := OrderedMap.mem_keys_iff.mpr ⟨subIndex, hget⟩
      by_cases hk : k ≤ k₀
      · have hafter : ¬ -k ≤ (heap sp).bottom := fun hle => hrow ⟨⟨hkey, hk⟩, hle⟩
        omega
      · omega

/-- The span is removed from the rows that it leaves; it may lose all of them. -/
theorem Indexed.shrink {spans' : List SpanId} (h : Indexed heap₀ spans index)
    (hnew : Resized heap₀ heap sp) (hsep : Separate heap₀ spans) (hsp : sp ∈ spans)
    (hbottom : (heap sp).bottom < (heap₀ sp).bottom)
    (hspans : ∀ a, a ∈ spans' ↔ a ∈ spans ∧ (a = sp → (heap sp).top ≤ (heap sp).bottom))
    {k₀ : ℤ} (hk₀ : index.lowerBound (-max (heap sp).bottom (heap sp).top) = some k₀) :
  Indexed heap spans' (QSpanCollection.removeSpan heap sp (heap₀ sp).bottom (index.keysDown k₀) index)
  := by
  obtain ⟨-, hle, hleast⟩ := OrderedMap.lowerBound_eq_some hk₀
  have hstart : k₀ ≤ -(heap sp).top := by
    rw [hnew.top] at hle hleast ⊢
    exact hleast _ (OrderedMap.mem_keys_iff.mpr (h.starts sp hsp)) (by omega)
  have hleft : ∀ k subIndex, index.get? k = some subIndex → k ≤ k₀ → -k ≤ (heap₀ sp).bottom →
      (heap sp).bottom < -k → Filed heap spans' (-k) (leftRow heap sp (some subIndex)) := by
    intro k subIndex hget hk hlast hleft l a
    rw [leftRow, Option.getD_some, OrderedMap.get?_erase]
    split
    next hl =>
      apply iff_of_false (fun hnone => nomatch hnone)
      rintro ⟨ha, hcolumn, htop, hbottom'⟩
      have hne : a ≠ sp := by
        rintro rfl
        omega
      rw [hnew.other a hne] at hcolumn htop hbottom'
      rw [hnew.left] at hl
      rw [hnew.top] at hstart
      exact hne (hsep.eq_of_crosses ((hspans a).mp ha).1 hsp (by omega) htop hbottom'
        (by omega) hlast)
    next hl =>
      rw [h.filed k subIndex hget l a, hspans, hnew.top_eq, hnew.left_eq]
      by_cases ha : a = sp
      · subst ha
        rw [← hnew.left]
        exact iff_of_false (fun hboth => hl hboth.2.1) (fun hboth => hl hboth.2.1)
      · rw [hnew.other a ha, and_iff_left (fun heq => absurd heq ha)]
  constructor
  · intro a ha
    obtain ⟨hmem, hkept⟩ := (hspans a).mp ha
    obtain ⟨subIndex, hget⟩ := h.starts a hmem
    rw [get?_removeSpan (OrderedMap.sorted_keysDown _ _), hnew.top_eq, hget]
    split
    next hrow =>
      have hfiled := hleft _ subIndex hget (OrderedMap.mem_keysDown.mp hrow.1).2 hrow.2.1
        hrow.2.2
      have hheight : (heap a).top ≤ (heap a).bottom := by
        by_cases heq : a = sp
        · rw [heq]
          exact hkept heq
        · rw [hnew.other a heq]
          exact (hsep.nonempty a hmem).1
      have htop := hnew.top_eq a
      have hentry := (hfiled (-(heap a).left) a).mpr ⟨ha, rfl, by omega, by omega⟩
      have hsome : ¬ (leftRow heap sp (some subIndex)).isEmpty = true := by
        intro hempty
        rw [(OrderedMap.isEmpty_iff _).mp hempty] at hentry
        cases hentry
      exact ⟨_, if_neg hsome⟩
    next => exact ⟨subIndex, rfl⟩
  · intro k subIndex hget
    rw [get?_removeSpan (OrderedMap.sorted_keysDown _ _)] at hget
    split at hget
    next hrow =>
      obtain ⟨sub, hsub⟩ := OrderedMap.mem_keys_iff.mp (OrderedMap.mem_keysDown.mp hrow.1).1
      rw [hsub] at hget
      split at hget
      next => cases hget
      next =>
        cases hget
        exact hleft k sub hsub (OrderedMap.mem_keysDown.mp hrow.1).2 hrow.2.1 hrow.2.2
    next hrow =>
      intro l a
      rw [h.filed k subIndex hget l a, hspans, hnew.top_eq, hnew.left_eq]
      by_cases ha : a = sp
      · subst ha
        have hkey : k ∈ index.keys := OrderedMap.mem_keys_iff.mpr ⟨subIndex, hget⟩
        rw [OrderedMap.mem_keysDown] at hrow
        have htop := hnew.top
        constructor
        · rintro ⟨hmem, hcolumn, habove, hbelow⟩
          have hafter : -k ≤ (heap a).bottom := by
            by_contra hnot
            exact hrow ⟨⟨hkey, by omega⟩, hbelow, by omega⟩
          exact ⟨⟨hmem, fun _ => by omega⟩, hcolumn, by omega, hafter⟩
        · rintro ⟨⟨hmem, -⟩, hcolumn, habove, hbelow⟩
          exact ⟨hmem, hcolumn, by omega, by omega⟩
      · rw [hnew.other a ha, and_iff_left (fun heq => absurd heq ha)]

end Resize

end QSpanCollection
