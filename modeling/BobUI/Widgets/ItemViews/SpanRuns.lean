import BobUI.Widgets.ItemViews.SpanInsertion
import BobUI.Widgets.ItemViews.SpanRowRemoval

/-!
# The runs of a span collection

From the empty collection on, every call does to the spans what it does to the rectangles, and
`spanAt` finds the span that covers a cell, as long as no removal of rows leaves a span behind:
a span that ends in the removed rows, where another one starts that goes on behind them.  Such a
span stays in the index where it has no cells, and there it may hide another one.
-/

namespace QSpanCollection

namespace Table

/-- No span is left behind when rows are removed. -/
def NothingLeftBehind (t : Table) : Call → Prop
  | .removedRows start stop =>
    ∀ a ∈ t, ∀ b ∈ t, Kept (a.removeRows start stop) → Kept (b.removeRows start stop) →
      ¬ LeftBehind start stop a b
  | _ => True

def run (t : Table) (calls : List Call) : Table :=
  calls.foldl step t

/-- Every call is made on a table on which it may be. -/
def Along (P : Table → Call → Prop) : Table → List Call → Prop
  | _, [] => True
  | t, call :: calls => P t call ∧ Along P (t.step call) calls

end Table

variable {c : QSpanCollection}

/-- The removal of rows, where no span is left behind. -/
theorem WellFormed.rowRemoval (h : c.WellFormed) {start stop : ℤ} (hle : start ≤ stop)
    (hbehind : c.table.NothingLeftBehind (.removedRows start stop)) :
  RowRemoval c.heap (c.changeSpans (Span.removedRows start stop)).heap c.spans
    (keptSpans c (Span.removedRows start stop)) start stop
  := by
  have hchanges := changes_removedRows h hle
  have hmem := fun a => mem_keptSpans h hchanges (a := a)
  have hrect := fun a ha => rect_keptSpans h hchanges (a := a) ha
  have hcolumns : ∀ a ∈ keptSpans c (Span.removedRows start stop),
      ((c.changeSpans (Span.removedRows start stop)).heap a).left = (c.heap a).left :=
    fun a ha => congrArg (fun r => r.columns.first) (hrect a ha)
  refine { removal_keptSpans h hchanges ?_ with
    le := hle, columns := hcolumns, rows := ?_, survives := ?_, leftBehind := ?_ }
  · intro a ha
    rw [← heap_changeSpans_of_mem (f := Span.removedRows start stop) h ((hmem a).mp ha).1,
      hcolumns a ha]
  · exact fun a ha => congrArg Rect.rows (hrect a ha)
  · intro a ha hbottom
    have hnonempty := h.separate.nonempty a ha
    have hcell := h.spanning a ha
    rw [hmem a]
    refine ⟨ha, ?_⟩
    unfold Table.Kept Rect.Nonempty Rect.IsCell Rect.removeRows Lines.removeFrom Span.rect at *
    grind
  · intro a ha b hb
    exact hbehind _ (mem_table.mpr ⟨a, ((hmem a).mp ha).1, rfl⟩) _
      (mem_table.mpr ⟨b, ((hmem b).mp hb).1, rfl⟩) ((hmem a).mp ha).2 ((hmem b).mp hb).2

theorem WellFormed.updateRemovedRows (h : c.WellFormed) {start stop : ℤ} (hle : start ≤ stop)
    (hbehind : c.table.NothingLeftBehind (.removedRows start stop)) :
  (c.updateRemovedRows start stop).WellFormed
    ∧ (c.updateRemovedRows start stop).table
      = (c.table.map (Rect.removeRows start stop)).filter fun r => Table.Kept r
  := by
  unfold QSpanCollection.updateRemovedRows
  by_cases hempty : c.spans.isEmpty = true
  · rw [if_pos hempty, table_of_isEmpty hempty]
    exact ⟨h, rfl⟩
  · rw [if_neg hempty]
    apply h.change (changes_removedRows h hle)
    split
    next hnone =>
      change (keptSpans c _).isEmpty = true at hnone
      rw [List.isEmpty_iff.mp hnone]
      exact indexed_empty _
    next => exact h.indexed.removeRows (h.rowRemoval hle hbehind)

/-- A call does to the spans what it does to the rectangles. -/
theorem WellFormed.step (h : c.WellFormed) {call : Call} (hvalid : c.table.Valid call)
    (hbehind : c.table.NothingLeftBehind call) :
  (c.step call).WellFormed ∧ (c.step call).table = c.table.step call
  := by
  cases call with
  | setSpan row column rowSpan columnSpan => exact h.setSpan hvalid
  | insertedRows start stop => exact h.updateInsertedRows hvalid
  | insertedColumns start stop => exact h.updateInsertedColumns hvalid
  | removedRows start stop => exact h.updateRemovedRows hvalid hbehind
  | removedColumns start stop => exact h.updateRemovedColumns hvalid

theorem WellFormed.run (h : c.WellFormed) {calls : List Call}
    (hcalls : Table.Along (fun t call => t.Valid call ∧ t.NothingLeftBehind call) c.table calls) :
  (c.run calls).WellFormed ∧ (c.run calls).table = c.table.run calls
  := by
  induction calls generalizing c with
  | nil => exact ⟨h, rfl⟩
  | cons call calls ih =>
    obtain ⟨⟨hvalid, hbehind⟩, hrest⟩ := hcalls
    obtain ⟨hstep, htable⟩ := h.step hvalid hbehind
    rw [← htable] at hrest
    obtain ⟨hrun, htables⟩ := ih hstep hrest
    refine ⟨hrun, htables.trans ?_⟩
    rw [htable]
    rfl

/-- `spanAt` finds the span whose rectangle has the cell, and nothing where there is none. -/
theorem WellFormed.spanAt (h : c.WellFormed) (x y : ℤ) (r : Rect) :
  (c.spanAt x y).map (fun a => (c.heap a).rect) = some r ↔ r ∈ c.table ∧ r.contains x y
  := by
  rw [Option.map_eq_some_iff, mem_table]
  constructor
  · rintro ⟨a, hat, rfl⟩
    obtain ⟨ha, hcontains⟩ := (spanAt_iff h.separate h.indexed x y a).mp hat
    exact ⟨⟨a, ha, rfl⟩, hcontains⟩
  · rintro ⟨⟨a, ha, rfl⟩, hcontains⟩
    exact ⟨a, (spanAt_iff h.separate h.indexed x y a).mpr ⟨ha, hcontains⟩, rfl⟩

end QSpanCollection
