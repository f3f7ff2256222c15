import BobUI.Widgets.ItemViews.SpanTable

/-!
# Removing rows and columns

The removal of lines shrinks and moves the spans and deletes some of them.  Each row of the index
is cleaned of the spans that are deleted, and the spans that move inside a row are filed again;
the rows that are removed are merged into the first row behind them.
-/

namespace QSpanCollection

/-- The spans before and after a removal. -/
structure Removal (heap heap' : SpanId → Span) (spans spans' : List SpanId) : Prop where
  live : ∀ a, a ∈ spans' ↔ a ∈ spans ∧ (heap' a).willBeDeleted = false
  before : Separate heap spans
  after : Separate heap' spans'
  left : ∀ a ∈ spans', (heap' a).left ≤ (heap a).left

/-- The span crosses the row. -/
def Crosses (heap : SpanId → Span) (row : ℤ) (a : SpanId) : Prop :=
  (heap a).top ≤ row ∧ row ≤ (heap a).bottom

variable {heap heap' : SpanId → Span} {spans spans' : List SpanId} {index : Index}

theorem Separate.eq_of_row (h : Separate heap spans) {a b : SpanId} {row : ℤ} (ha : a ∈ spans)
    (hb : b ∈ spans) (hrowA : Crosses heap row a) (hrowB : Crosses heap row b)
    (hleft : (heap a).left = (heap b).left) :
  a = b
  := h.eq_of_crosses ha hb hleft hrowA.1 hrowA.2 hrowB.1 hrowB.2

/-! ### Cleaning a row -/

/-- A row where the spans under the keys have yet to be cleaned. -/
def HalfCleaned (heap heap' : SpanId → Span) (spans spans' : List SpanId) (row : ℤ)
    (keys : List ℤ) (subIndex : SubIndex) : Prop :=
  ∀ l a, subIndex.get? l = some a
    ↔ a ∈ spans ∧ Crosses heap row a
      ∧ (-(heap a).left ∈ keys ∧ l = -(heap a).left
        ∨ -(heap a).left ∉ keys ∧ a ∈ spans' ∧ l = -(heap' a).left)

section Clean

variable {row : ℤ}

variable {subIndex : SubIndex}

/-- One span has been cleaned, the one under the key `k`. -/
theorem HalfCleaned.step (h : Removal heap heap' spans spans')
    (hrows : ∀ a ∈ spans', Crosses heap row a → Crosses heap' row a) {k : ℤ} {keys : List ℤ}
    (hsorted : ∀ l ∈ keys, l < k) {a : SpanId}
    (hhalf : HalfCleaned heap heap' spans spans' row (k :: keys) subIndex) (ha : a ∈ spans)
    (hrow : Crosses heap row a) (hk : -(heap a).left = k) (subIndex' : SubIndex)
    (hget : ∀ l b, subIndex'.get? l = some b
      ↔ a ∈ spans' ∧ l = -(heap' a).left ∧ b = a
        ∨ ¬ (a ∈ spans' ∧ l = -(heap' a).left) ∧ l ≠ k ∧ subIndex.get? l = some b) :
  HalfCleaned heap heap' spans spans' row keys subIndex'
  := by
  have hnot : k ∉ keys := fun hmem => Int.lt_irrefl k (hsorted k hmem)
  have hat : subIndex.get? k = some a :=
    (hhalf k a).mpr ⟨ha, hrow, .inl ⟨hk ▸ List.mem_cons_self, hk.symm⟩⟩
  have hunder : ∀ b ∈ spans, Crosses heap row b → -(heap b).left = k → b = a :=
    fun b hb hrowB hkB => h.before.eq_of_row hb ha hrowB hrow (by omega)
  intro l b
  rw [hget, hhalf]
  constructor
  · rintro (⟨hlive, hl, rfl⟩ | ⟨hmoved, hl, hb, hrowB, hentry⟩)
    · exact ⟨ha, hrow, .inr ⟨hk ▸ hnot, hlive, hl⟩⟩
    · refine ⟨hb, hrowB, ?_⟩
      rcases hentry with ⟨hkey, hlB⟩ | ⟨hkey, hliveB, hlB⟩
      · rcases List.mem_cons.mp hkey with hfirst | hlater
        · exact absurd (hlB.trans hfirst) hl
        · exact .inl ⟨hlater, hlB⟩
      · exact .inr ⟨fun hlater => hkey (List.mem_cons_of_mem _ hlater), hliveB, hlB⟩
  · rintro ⟨hb, hrowB, ⟨hkey, hlB⟩ | ⟨hkey, hliveB, hlB⟩⟩
    · have hlt := hsorted _ hkey
      refine .inr ⟨?_, by omega, hb, hrowB, .inl ⟨List.mem_cons_of_mem _ hkey, hlB⟩⟩
      rintro ⟨hlive, hl⟩
      have hleft := h.left a hlive
      omega
    · by_cases hfirst : -(heap b).left = k
      · obtain rfl := hunder b hb hrowB hfirst
        exact .inl ⟨hliveB, hlB, rfl⟩
      · have hboth : -(heap b).left ∉ k :: keys := by
          rw [List.mem_cons]
          exact fun hmem => hmem.elim hfirst hkey
        refine .inr ⟨?_, ?_, hb, hrowB, .inr ⟨hboth, hliveB, hlB⟩⟩
        · rintro ⟨hlive, hl⟩
          have hsame := h.after.eq_of_row hlive hliveB (hrows a hlive hrow)
            (hrows b hliveB hrowB) (by omega)
          exact hfirst (hsame ▸ hk)
        · rintro rfl
          have hhere := (hhalf l b).mpr ⟨hb, hrowB, .inr ⟨hboth, hliveB, hlB⟩⟩
          rw [hat, Option.some.injEq] at hhere
          exact hfirst (hhere ▸ hk)

theorem halfCleaned_cleanKeys (h : Removal heap heap' spans spans')
    (hrows : ∀ a ∈ spans', Crosses heap row a → Crosses heap' row a) {update : Bool}
    (hupdate : update = false → ∀ a ∈ spans', (heap' a).left = (heap a).left) {keys : List ℤ}
    (hsorted : keys.Pairwise (· > ·))
    (hkeys : ∀ k ∈ keys, ∃ a ∈ spans, Crosses heap row a ∧ -(heap a).left = k)
    (hhalf : HalfCleaned heap heap' spans spans' row keys subIndex) (shouldBeDeleted : Bool) :
  HalfCleaned heap heap' spans spans' row []
      (cleanKeys heap' row update keys subIndex shouldBeDeleted).1
    ∧ ((cleanKeys heap' row update keys subIndex shouldBeDeleted).2 = true
      ↔ shouldBeDeleted = true
        ∧ ∀ a ∈ spans', Crosses heap row a → -(heap a).left ∈ keys → (heap' a).top ≠ row)
  := by
  induction keys generalizing subIndex shouldBeDeleted with
  | nil =>
    rw [cleanKeys]
    exact ⟨hhalf, (and_iff_left fun _ _ _ hnil => absurd hnil List.not_mem_nil).symm⟩
  | cons k keys ih =>
    rw [List.pairwise_cons] at hsorted
    obtain ⟨a, ha, hrow, hk⟩ := hkeys k List.mem_cons_self
    have hat : subIndex.get? k = some a :=
      (hhalf k a).mpr ⟨ha, hrow, .inl ⟨hk ▸ List.mem_cons_self, hk.symm⟩⟩
    have hrest := fun l hl => hkeys l (List.mem_cons_of_mem k hl)
    have hstep := HalfCleaned.step h hrows hsorted.1 hhalf ha hrow hk
    rw [cleanKeys, hat]
    dsimp only
    cases hdead : (heap' a).willBeDeleted with
    | true =>
      rw [if_pos rfl]
      have hnot : a ∉ spans' := by
        rw [h.live a, hdead]
        exact fun hlive => nomatch hlive.2
      have hnext := ih hsorted.2 hrest (hstep (subIndex.erase k) (by
        intro l b
        rw [OrderedMap.get?_erase]
        simp only [hnot, false_and, not_false_eq_true, true_and, false_or]
        split
        next hl => exact iff_of_false (fun hnone => nomatch hnone) (fun hne => hne.1 hl)
        next hl => exact (and_iff_right hl).symm)) shouldBeDeleted
      refine ⟨hnext.1, hnext.2.trans ?_⟩
      apply and_congr_right
      intro _
      constructor
      · intro hnone b hb hrowB hmem
        rcases List.mem_cons.mp hmem with hfirst | hlater
        · have hsame := h.before.eq_of_row ((h.live b).mp hb).1 ha hrowB hrow (by omega)
          exact absurd (hsame ▸ hb) hnot
        · exact hnone b hb hrowB hlater
      · intro hnone b hb hrowB hmem
        exact hnone b hb hrowB (List.mem_cons_of_mem _ hmem)
    | false =>
      rw [if_neg Bool.false_ne_true]
      have hlive : a ∈ spans' := (h.live a).mpr ⟨ha, hdead⟩
      have htop : (∀ b ∈ spans', Crosses heap row b → -(heap b).left ∈ k :: keys →
          (heap' b).top ≠ row)
          ↔ decide ((heap' a).top ≠ row) = true ∧ ∀ b ∈ spans', Crosses heap row b →
            -(heap b).left ∈ keys → (heap' b).top ≠ row := by
        rw [decide_eq_true_eq]
        constructor
        · intro hnone
          refine ⟨hnone a hlive hrow (hk ▸ List.mem_cons_self), ?_⟩
          intro b hb hrowB hmem
          exact hnone b hb hrowB (List.mem_cons_of_mem _ hmem)
        · rintro ⟨hfirst, hlater⟩ b hb hrowB hmem
          rcases List.mem_cons.mp hmem with heq | hmem
          · have hsame := h.before.eq_of_row ((h.live b).mp hb).1 ha hrowB hrow (by omega)
            exact hsame ▸ hfirst
          · exact hlater b hb hrowB hmem
      have hnext := fun subIndex' hget => ih hsorted.2 hrest (hstep subIndex' hget)
        (shouldBeDeleted && (heap' a).top ≠ row)
      rw [htop, ← and_assoc, ← Bool.and_eq_true]
      apply hnext
      intro l b
      simp only [hlive, true_and]
      split
      next hmoved =>
        have hne : -(heap' a).left ≠ k := fun heq => hmoved.2 (by omega)
        rw [OrderedMap.get?_erase, OrderedMap.get?_insert]
        by_cases hl : l = -(heap' a).left
        · rw [if_neg (hl ▸ hne), if_pos hl, Option.some.injEq]
          simp only [hl, true_and, not_true_eq_false, false_and, or_false]
          exact eq_comm
        · simp only [hl, if_false, false_and, not_false_eq_true, true_and, false_or]
          split
          next heq => exact iff_of_false (fun hnone => nomatch hnone) (fun hboth => hboth.1 heq)
          next hlk => exact (and_iff_right hlk).symm
      next hstays =>
        have hsame : -(heap' a).left = k := by
          cases update with
          | true =>
            by_contra hne
            exact hstays ⟨rfl, by omega⟩
          | false => rw [hupdate rfl a hlive, hk]
        rw [hsame]
        by_cases hl : l = k
        · rw [hl, hat, Option.some.injEq]
          simp only [true_and, not_true_eq_false, false_and, or_false]
          exact eq_comm
        · simp only [hl, false_and, not_false_eq_true, true_and, false_or, ne_eq]

/-- A row is cleaned. -/
theorem filed_cleanSpanSubIndex (h : Removal heap heap' spans spans')
    (hrows : ∀ a ∈ spans', Crosses heap row a ↔ Crosses heap' row a) (update : Bool)
    (hupdate : update = false → ∀ a ∈ spans', (heap' a).left = (heap a).left)
    (hfiled : Filed heap spans row subIndex) :
  Filed heap' spans' row (cleanSpanSubIndex heap' subIndex row update).1
    ∧ ((cleanSpanSubIndex heap' subIndex row update).2 = true ↔ ∀ a ∈ spans', (heap' a).top ≠ row)
  := by
  have hstart : ∀ a ∈ spans', (heap' a).top = row → Crosses heap row a := fun a ha htop =>
    (hrows a ha).mpr ⟨le_of_eq htop, htop ▸ (h.after.nonempty a ha).1⟩
  have hkey : ∀ a ∈ spans, Crosses heap row a → -(heap a).left ∈ subIndex.keys := fun a ha hrow =>
    OrderedMap.mem_keys_iff.mpr ⟨a, (hfiled _ a).mpr ⟨ha, rfl, hrow.1, hrow.2⟩⟩
  unfold cleanSpanSubIndex
  split
  next hempty =>
    rw [OrderedMap.isEmpty_iff] at hempty
    have hnone : ∀ a ∈ spans, ¬ Crosses heap row a := by
      intro a ha hrow
      have hget := (hfiled _ a).mpr ⟨ha, rfl, hrow.1, hrow.2⟩
      rw [hempty] at hget
      cases hget
    constructor
    · intro l a
      rw [hempty]
      apply iff_of_false (fun hno => nomatch hno)
      rintro ⟨ha, -, hrow⟩
      exact hnone a ((h.live a).mp ha).1 ((hrows a ha).mpr hrow)
    · apply iff_of_true rfl
      intro a ha htop
      exact hnone a ((h.live a).mp ha).1 (hstart a ha htop)
  next =>
    have hhalf : HalfCleaned heap heap' spans spans' row subIndex.keys.reverse subIndex := by
      intro l a
      rw [hfiled l a]
      apply and_congr_right
      intro ha
      simp only [List.mem_reverse]
      constructor
      · rintro ⟨hl, hrow⟩
        exact ⟨hrow, .inl ⟨hkey a ha hrow, hl⟩⟩
      · rintro ⟨hrow, ⟨-, hl⟩ | ⟨hnot, -⟩⟩
        · exact ⟨hl, hrow⟩
        · exact absurd (hkey a ha hrow) hnot
    obtain ⟨hclean, hdeleted⟩ := halfCleaned_cleanKeys h (fun a ha => (hrows a ha).mp) hupdate
      (List.pairwise_reverse.mpr subIndex.sorted_keys) (by
        intro k hk
        obtain ⟨a, hget⟩ := OrderedMap.mem_keys_iff.mp (List.mem_reverse.mp hk)
        obtain ⟨ha, hl, hrow⟩ := (hfiled k a).mp hget
        exact ⟨a, ha, hrow, hl.symm⟩) hhalf true
    constructor
    · intro l a
      rw [hclean l a]
      simp only [List.not_mem_nil, false_and, not_false_eq_true, true_and, false_or]
      constructor
      · rintro ⟨-, hrow, ha, hl⟩
        exact ⟨ha, hl, (hrows a ha).mp hrow⟩
      · rintro ⟨ha, hl, hrow⟩
        exact ⟨((h.live a).mp ha).1, (hrows a ha).mpr hrow, ha, hl⟩
    · rw [hdeleted]
      constructor
      · rintro ⟨-, hnone⟩ a ha htop
        have hrow := hstart a ha htop
        exact hnone a ha hrow (List.mem_reverse.mpr (hkey a ((h.live a).mp ha).1 hrow)) htop
      · intro hnone
        exact ⟨rfl, fun a ha _ _ => hnone a ha⟩

end Clean

/-- A row is cleaned, and erased if no span starts there. -/
def cleanedRow (heap : SpanId → Span) (row : ℤ) (update : Bool) (subIndex : SubIndex) :
  Option SubIndex
  :=
  if (cleanSpanSubIndex heap subIndex row update).2 then none
  else some (cleanSpanSubIndex heap subIndex row update).1

/-! ### The lines that are removed -/

variable {start stop : ℤ} {c : QSpanCollection}

/-- What is left of the lines, unless all of them are removed. -/
theorem removedLines_eq {first last : ℤ} (hle : first ≤ last) (hlast : ¬ last < start) :
  ((removedLines start stop first last).2.2 = false
      ↔ (Lines.removeFrom start stop ⟨first, last⟩).first
        ≤ (Lines.removeFrom start stop ⟨first, last⟩).last)
    ∧ ((removedLines start stop first last).2.2 = false →
      (⟨(removedLines start stop first last).1, (removedLines start stop first last).2.1⟩ : Lines)
        = Lines.removeFrom start stop ⟨first, last⟩)
  := by
  unfold removedLines Lines.removeFrom
  grind

/-- Lines in front of the removed ones. -/
theorem removeFrom_before {l : Lines} (hle : l.first ≤ l.last) (hlast : l.last < start) :
  l.removeFrom start stop = l
  := by
  unfold Lines.removeFrom
  rw [if_pos (Int.lt_of_le_of_lt hle hlast), if_pos hlast]

theorem changes_removedRows (h : c.WellFormed) (hle : start ≤ stop) :
  Changes c (Span.removedRows start stop) (Rect.removeRows start stop)
  := by
  have heach : ∀ a ∈ c.spans,
      (((c.heap a).removedRows start stop).willBeDeleted = false
        ↔ Table.Kept ((c.heap a).rect.removeRows start stop))
      ∧ (Table.Kept ((c.heap a).rect.removeRows start stop) →
        ((c.heap a).removedRows start stop).rect = (c.heap a).rect.removeRows start stop) := by
    intro a ha
    have hnonempty := h.separate.nonempty a ha
    have hlive := h.live a ha
    have hcell := h.spanning a ha
    unfold Span.removedRows
    by_cases habove : (c.heap a).bottom < start
    · have hsame : (c.heap a).rect.removeRows start stop = (c.heap a).rect := by
        rw [Rect.removeRows, removeFrom_before hnonempty.1 habove]
      rw [if_pos habove, hsame]
      exact ⟨iff_of_true hlive ⟨hnonempty, hcell⟩, fun _ => rfl⟩
    · rw [if_neg habove]
      obtain ⟨hdeleted, hlines⟩ := removedLines_eq hnonempty.1 habove
      simp only [Table.Kept, Rect.Nonempty, Rect.IsCell, Rect.removeRows, Span.rect, hlive,
        Bool.false_or, Bool.or_eq_false_iff] at *
      rw [hdeleted]
      constructor
      · grind
      · rintro ⟨⟨hkept, -⟩, -⟩
        rw [hlines (hdeleted.mpr hkept)]
  exact ⟨fun a ha => (heach a ha).1, fun a ha => (heach a ha).2,
    fun r s hover => hover.of_removeRows hle⟩

theorem changes_removedColumns (h : c.WellFormed) (hle : start ≤ stop) :
  Changes c (Span.removedColumns start stop) (Rect.removeColumns start stop)
  := by
  have heach : ∀ a ∈ c.spans,
      (((c.heap a).removedColumns start stop).willBeDeleted = false
        ↔ Table.Kept ((c.heap a).rect.removeColumns start stop))
      ∧ (Table.Kept ((c.heap a).rect.removeColumns start stop) →
        ((c.heap a).removedColumns start stop).rect
          = (c.heap a).rect.removeColumns start stop) := by
    intro a ha
    have hnonempty := h.separate.nonempty a ha
    have hlive := h.live a ha
    have hcell := h.spanning a ha
    unfold Span.removedColumns
    by_cases habove : (c.heap a).right < start
    · have hsame : (c.heap a).rect.removeColumns start stop = (c.heap a).rect := by
        rw [Rect.removeColumns, removeFrom_before hnonempty.2 habove]
      rw [if_pos habove, hsame]
      exact ⟨iff_of_true hlive ⟨hnonempty, hcell⟩, fun _ => rfl⟩
    · rw [if_neg habove]
      obtain ⟨hdeleted, hlines⟩ := removedLines_eq hnonempty.2 habove
      simp only [Table.Kept, Rect.Nonempty, Rect.IsCell, Rect.removeColumns, Span.rect, hlive,
        Bool.false_or, Bool.or_eq_false_iff] at *
      rw [hdeleted]
      constructor
      · grind
      · rintro ⟨⟨-, hkept⟩, -⟩
        rw [hlines (hdeleted.mpr hkept)]
  exact ⟨fun a ha => (heach a ha).1, fun a ha => (heach a ha).2,
    fun r s hover => hover.of_removeColumns hle⟩

/-! ### Removing columns -/

theorem get?_cleanRows {keys : List ℤ} (h : keys.Nodup) (index : Index) (k : ℤ) :
  (cleanRows heap keys index).get? k
    = if k ∈ keys then cleanedRow heap (-k) true ((index.get? k).getD .empty) else index.get? k
  := by
  induction keys generalizing index with
  | nil => rw [cleanRows, if_neg List.not_mem_nil]
  | cons k₀ keys ih =>
    rw [List.nodup_cons] at h
    rw [cleanRows]
    dsimp only
    rw [ih h.2, get?_erase_or_insert]
    by_cases hk : k = k₀
    · subst hk
      rw [if_neg h.1, if_pos (Eq.refl k), if_pos List.mem_cons_self]
      rfl
    · simp only [List.mem_cons, hk, false_or, if_false]

/-- The rows are cleaned, where no span has moved to another row. -/
theorem Indexed.cleanRows (hindex : Indexed heap spans index) (h : Removal heap heap' spans spans')
    (hrows : ∀ a ∈ spans', (heap' a).top = (heap a).top ∧ (heap' a).bottom = (heap a).bottom) :
  Indexed heap' spans' (cleanRows heap' index.keys index)
  := by
  have hclean : ∀ row subIndex, index.get? (-row) = some subIndex →
      Filed heap' spans' row (cleanSpanSubIndex heap' subIndex row true).1
      ∧ ((cleanSpanSubIndex heap' subIndex row true).2 = true
        ↔ ∀ a ∈ spans', (heap' a).top ≠ row) := by
    intro row subIndex hget
    apply filed_cleanSpanSubIndex h
    · intro a ha
      rw [Crosses, Crosses, (hrows a ha).1, (hrows a ha).2]
    · exact fun hupdate => nomatch hupdate
    · have hfiled := hindex.filed (-row) subIndex hget
      rwa [Int.neg_neg] at hfiled
  constructor
  · intro a ha
    obtain ⟨subIndex, hget⟩ := hindex.starts a ((h.live a).mp ha).1
    rw [get?_cleanRows index.nodup_keys, (hrows a ha).1,
      if_pos (OrderedMap.mem_keys_iff.mpr ⟨subIndex, hget⟩), hget, Option.getD_some, Int.neg_neg,
      cleanedRow, if_neg]
    · exact ⟨_, rfl⟩
    · intro hdeleted
      exact ((hclean _ subIndex hget).2.mp hdeleted) a ha (hrows a ha).1
  · intro k subIndex hget
    rw [get?_cleanRows index.nodup_keys] at hget
    split at hget
    next hkey =>
      obtain ⟨sub, hsub⟩ := OrderedMap.mem_keys_iff.mp hkey
      rw [hsub, Option.getD_some, cleanedRow] at hget
      split at hget
      next => cases hget
      next =>
        cases hget
        exact (hclean (-k) sub (by rwa [Int.neg_neg])).1
    next hkey =>
      rw [OrderedMap.get?_eq_none_iff.mpr hkey] at hget
      cases hget

/-- An index for no spans. -/
theorem indexed_empty (heap : SpanId → Span) :
  Indexed heap [] .empty
  := ⟨fun _ ha => absurd ha List.not_mem_nil, fun _ _ hget => nomatch hget⟩

theorem removal_keptSpans (h : c.WellFormed) {f : Span → Span} {g : Rect → Rect}
    (hchanges : Changes c f g)
    (hleft : ∀ a ∈ keptSpans c f, (f (c.heap a)).left ≤ (c.heap a).left) :
  Removal c.heap (c.changeSpans f).heap c.spans (keptSpans c f)
  := by
  constructor
  · intro a
    rw [keptSpans, List.mem_filter, Bool.not_eq_true']
  · exact h.separate
  · exact separate_keptSpans h hchanges
  · intro a ha
    rw [heap_changeSpans_of_mem h (List.mem_of_mem_filter ha)]
    exact hleft a ha

/-- The removal of columns; no span moves to another row. -/
theorem WellFormed.columnRemoval (h : c.WellFormed) (hle : start ≤ stop) :
  Removal c.heap (c.changeSpans (Span.removedColumns start stop)).heap c.spans
      (keptSpans c (Span.removedColumns start stop))
    ∧ ∀ a ∈ keptSpans c (Span.removedColumns start stop),
      ((c.changeSpans (Span.removedColumns start stop)).heap a).top = (c.heap a).top
        ∧ ((c.changeSpans (Span.removedColumns start stop)).heap a).bottom = (c.heap a).bottom
  := by
  have hchanges := changes_removedColumns h hle
  constructor
  · apply removal_keptSpans h hchanges
    intro a ha
    have hnonempty := h.separate.nonempty a (List.mem_of_mem_filter ha)
    have hrect := hchanges.rect a (List.mem_of_mem_filter ha)
      ((mem_keptSpans h hchanges).mp ha).2
    have hleft := congrArg (fun r => r.columns.first) hrect
    change _ = (Lines.removeFrom start stop ⟨(c.heap a).left, (c.heap a).right⟩).first at hleft
    change ((c.heap a).removedColumns start stop).left = _ at hleft
    rw [hleft]
    unfold Lines.removeFrom
    grind
  · intro a ha
    have hrect := rect_keptSpans h hchanges ha
    exact ⟨congrArg (fun r => r.rows.first) hrect, congrArg (fun r => r.rows.last) hrect⟩

theorem WellFormed.updateRemovedColumns (h : c.WellFormed) (hle : start ≤ stop) :
  (c.updateRemovedColumns start stop).WellFormed
    ∧ (c.updateRemovedColumns start stop).table
      = (c.table.map (Rect.removeColumns start stop)).filter fun r => Table.Kept r
  := by
  unfold QSpanCollection.updateRemovedColumns
  by_cases hempty : c.spans.isEmpty = true
  · rw [if_pos hempty]
    refine ⟨h, ?_⟩
    rw [table, List.isEmpty_iff.mp hempty]
    rfl
  · rw [if_neg hempty]
    apply h.change (changes_removedColumns h hle)
    obtain ⟨hremoval, hrows⟩ := h.columnRemoval hle
    split
    next hnone =>
      change (keptSpans c _).isEmpty = true at hnone
      rw [List.isEmpty_iff.mp hnone]
      exact indexed_empty _
    next => exact h.indexed.cleanRows hremoval hrows

end QSpanCollection
