import BobUI.Library.Pieces

/-!
# Item selections

`QItemSelectionRange` and `QItemSelection` of `qitemselectionmodel.cpp` over the items of one model.
`merge` cuts the ranges of both selections along their intersections: `split` leaves up to four
ranges of a range, at the end of the list that the loop goes through.
-/

/-- The items of a model: how many rows and columns each parent has.  The items of the top level
have the parent `root`, the invalid index. -/
structure QAbstractItemModel (P : Type) where
  root : P
  rowCount : P → ℤ
  columnCount : P → ℤ

variable {P : Type} [DecidableEq P]

/-- A valid index of a model. -/
structure QModelIndex (model : QAbstractItemModel P) where
  row : ℤ
  column : ℤ
  parent : P
  hasIndex : (0 ≤ row ∧ row < model.rowCount parent) ∧
    (0 ≤ column ∧ column < model.columnCount parent)
deriving DecidableEq

/-- `index`: the item at a row and a column of a parent, where there is one. -/
def QAbstractItemModel.index (model : QAbstractItemModel P) (row column : ℤ) (parent : P) :
    Option (QModelIndex model) :=
  if h : (0 ≤ row ∧ row < model.rowCount parent) ∧
      (0 ≤ column ∧ column < model.columnCount parent) then some ⟨row, column, parent, h⟩
  else none

/-- A range of items; `none` is the invalid index. -/
structure QItemSelectionRange (model : QAbstractItemModel P) where
  tl : Option (QModelIndex model)
  br : Option (QModelIndex model)
deriving DecidableEq

variable {model : QAbstractItemModel P}

namespace QItemSelectionRange

def top (r : QItemSelectionRange model) : ℤ :=
  r.tl.elim (-1) QModelIndex.row

def left (r : QItemSelectionRange model) : ℤ :=
  r.tl.elim (-1) QModelIndex.column

def bottom (r : QItemSelectionRange model) : ℤ :=
  r.br.elim (-1) QModelIndex.row

def right (r : QItemSelectionRange model) : ℤ :=
  r.br.elim (-1) QModelIndex.column

def parent (r : QItemSelectionRange model) : P :=
  r.tl.elim model.root QModelIndex.parent

/-- `model()`: whether it is the model, and not null. -/
def hasModel (r : QItemSelectionRange model) : Bool :=
  r.tl.isSome

def contains (r : QItemSelectionRange model) (row column : ℤ) (parentIndex : P) : Bool :=
  r.bottom ≥ row && r.right ≥ column && r.top ≤ row && r.left ≤ column && r.parent = parentIndex

def isValid (r : QItemSelectionRange model) : Bool :=
  r.tl.isSome && r.br.isSome && r.parent = r.br.elim model.root QModelIndex.parent
    && r.top ≤ r.bottom && r.left ≤ r.right

def intersects (r other : QItemSelectionRange model) : Bool :=
  if r.hasModel ≠ other.hasModel then false
  else if r.top > other.bottom ∨ r.bottom < other.top then false
  else if r.left > other.right ∨ r.right < other.left then false
  else if r.parent ≠ other.parent then false
  else r.isValid && other.isValid

def intersected (r other : QItemSelectionRange model) : QItemSelectionRange model :=
  if r.hasModel = other.hasModel ∧ r.parent = other.parent then
    ⟨model.index (max r.top other.top) (max r.left other.left) other.parent,
      model.index (min r.bottom other.bottom) (min r.right other.right) other.parent⟩
  else ⟨none, none⟩

end QItemSelectionRange

/-- A list of ranges. -/
abbrev QItemSelection (model : QAbstractItemModel P) : Type :=
  List (QItemSelectionRange model)

/-- The members of `QItemSelectionModel::SelectionFlags` that `merge` looks at. -/
structure SelectionFlags where
  select : Bool
  deselect : Bool
  toggle : Bool
deriving DecidableEq, Repr

def SelectionFlags.Select : SelectionFlags := ⟨true, false, false⟩

def SelectionFlags.Deselect : SelectionFlags := ⟨false, true, false⟩

def SelectionFlags.Toggle : SelectionFlags := ⟨false, false, true⟩

namespace QItemSelection

/-- The ranges that `split` appends. -/
def split (range other : QItemSelectionRange model) : QItemSelection model :=
  if range.parent ≠ other.parent ∨ range.hasModel ≠ other.hasModel then []
  else
    let parent := other.parent
    let above :=
      if other.top > range.top then
        [⟨model.index range.top range.left parent, model.index (other.top - 1) range.right parent⟩]
      else []
    let top := if other.top > range.top then other.top else range.top
    let below :=
      if other.bottom < range.bottom then
        [⟨model.index (other.bottom + 1) range.left parent,
          model.index range.bottom range.right parent⟩]
      else []
    let bottom := if other.bottom < range.bottom then other.bottom else range.bottom
    let before :=
      if other.left > range.left then
        [⟨model.index top range.left parent, model.index bottom (other.left - 1) parent⟩]
      else []
    let behind :=
      if other.right < range.right then
        [⟨model.index top (other.right + 1) parent, model.index bottom range.right parent⟩]
      else []
    above ++ below ++ before ++ behind

end QItemSelection

/-! ### Cells -/

namespace QItemSelectionRange

/-- An item of a range: its row, its column and its parent. -/
def cells (r : QItemSelectionRange model) : Set (ℤ × ℤ × P) :=
  {x | r.contains x.1 x.2.1 x.2.2 = true}

variable {r s : QItemSelectionRange model}

theorem mem_cells {row column : ℤ} {p : P} :
  (row, column, p) ∈ r.cells ↔
    (r.top ≤ row ∧ row ≤ r.bottom) ∧ (r.left ≤ column ∧ column ≤ r.right) ∧ r.parent = p
  := by
  change r.contains row column p = true ↔ _
  simp only [contains, Bool.and_eq_true, decide_eq_true_iff]
  tauto

/-- The rows and columns of a valid range are those of items. -/
theorem bounds_of_isValid (h : r.isValid = true) :
  r.hasModel = true ∧ (0 ≤ r.top ∧ r.top ≤ r.bottom ∧ r.bottom < model.rowCount r.parent) ∧
    0 ≤ r.left ∧ r.left ≤ r.right ∧ r.right < model.columnCount r.parent
  := by
  obtain ⟨tl, br⟩ := r
  cases tl with
  | none => cases h
  | some i =>
    cases br with
    | none => cases h
    | some j =>
      simp only [isValid, Bool.and_eq_true, decide_eq_true_iff] at h
      obtain ⟨⟨⟨-, hparent⟩, hrows⟩, hcolumns⟩ := h
      have hi := i.hasIndex
      have hj := j.hasIndex
      change i.parent = j.parent at hparent
      rw [← hparent] at hj
      exact ⟨rfl, ⟨hi.1.1, hrows, hj.1.2⟩, hi.2.1, hcolumns, hj.2.2⟩

/-- The range between two items. -/
structure Spans (r : QItemSelectionRange model) (top left bottom right : ℤ) (p : P) : Prop where
  isValid : r.isValid = true
  cells_eq : ∀ row column q, (row, column, q) ∈ r.cells ↔
    (top ≤ row ∧ row ≤ bottom) ∧ (left ≤ column ∧ column ≤ right) ∧ p = q

variable (model) in
theorem spans_index {top left bottom right : ℤ} (p : P) (htop : 0 ≤ top) (hrows : top ≤ bottom)
    (hbottom : bottom < model.rowCount p) (hleft : 0 ≤ left) (hcolumns : left ≤ right)
    (hright : right < model.columnCount p) :
  (⟨model.index top left p, model.index bottom right p⟩ : QItemSelectionRange model).Spans
    top left bottom right p
  := by
  have htl : model.index top left p = some ⟨top, left, p, by omega⟩ := dif_pos _
  have hbr : model.index bottom right p = some ⟨bottom, right, p, by omega⟩ := dif_pos _
  rw [htl, hbr]
  constructor
  · simp [isValid, parent, QItemSelectionRange.top, QItemSelectionRange.bottom,
      QItemSelectionRange.left, QItemSelectionRange.right, hrows, hcolumns]
  · intro row column q
    apply mem_cells

/-- Valid ranges intersect if and only if they have an item in common. -/
theorem intersects_iff (hr : r.isValid = true) (hs : s.isValid = true) :
  r.intersects s = true ↔ ¬ Disjoint r.cells s.cells
  := by
  obtain ⟨hmodel, hrows, hcolumns⟩ := bounds_of_isValid hr
  obtain ⟨hmodel', hrows', hcolumns'⟩ := bounds_of_isValid hs
  have hboth : r.intersects s = true ↔ r.top ≤ s.bottom ∧ s.top ≤ r.bottom ∧ r.left ≤ s.right ∧
      s.left ≤ r.right ∧ r.parent = s.parent := by
    rw [intersects, hmodel, hmodel', hr, hs, if_neg (by decide)]
    split_ifs with h1 h2 h3
    · simp only [false_iff]
      omega
    · simp only [false_iff]
      omega
    · simp [h3]
    · simp only [Bool.and_self, true_iff]
      rw [not_not] at h3
      use by omega, by omega, by omega, by omega
  rw [hboth, Set.not_disjoint_iff]
  constructor
  · rintro ⟨h1, h2, h3, h4, hparent⟩
    use (max r.top s.top, max r.left s.left, r.parent)
    constructor
    · apply mem_cells.mpr
      use by omega, by omega
    · apply mem_cells.mpr
      use by omega, by omega, hparent.symm
  · rintro ⟨⟨row, column, p⟩, hin, hin'⟩
    rw [mem_cells] at hin hin'
    use by omega, by omega, by omega, by omega
    rw [hin.2.2, hin'.2.2]

theorem isValid_of_intersects (h : r.intersects s = true) :
  r.isValid = true ∧ s.isValid = true
  := by
  rw [intersects] at h
  split_ifs at h
  rw [Bool.and_eq_true] at h
  apply h

theorem intersects_symm (h : r.intersects s = true) :
  s.intersects r = true
  := by
  obtain ⟨hr, hs⟩ := isValid_of_intersects h
  rw [intersects_iff hr hs, disjoint_comm] at h
  rw [intersects_iff hs hr]
  apply h

/-- Ranges that intersect have their items in common with `intersected`. -/
theorem intersected_cells (h : r.intersects s = true) :
  (r.intersected s).isValid = true ∧ (r.intersected s).cells = r.cells ∩ s.cells
  := by
  obtain ⟨hr, hs⟩ := isValid_of_intersects h
  obtain ⟨hmodel, hrows, hcolumns⟩ := bounds_of_isValid hr
  obtain ⟨hmodel', hrows', hcolumns'⟩ := bounds_of_isValid hs
  obtain ⟨⟨row, column, p⟩, hin, hin'⟩ := Set.not_disjoint_iff.mp ((intersects_iff hr hs).mp h)
  rw [mem_cells] at hin hin'
  have hparent : r.parent = s.parent := by rw [hin.2.2, hin'.2.2]
  rw [intersected, if_pos ⟨hmodel.trans hmodel'.symm, hparent⟩, ← hparent]
  rw [← hparent] at hrows' hcolumns'
  obtain ⟨hvalid, hcells⟩ := spans_index model r.parent
    (by omega : 0 ≤ max r.top s.top) (by omega : max r.top s.top ≤ min r.bottom s.bottom)
    (by omega) (by omega : 0 ≤ max r.left s.left)
    (by omega : max r.left s.left ≤ min r.right s.right) (by omega)
  use hvalid
  ext ⟨row, column, q⟩
  rw [hcells, Set.mem_inter_iff, mem_cells, mem_cells, ← hparent]
  constructor
  · rintro ⟨h1, h2, h3⟩
    use ⟨by omega, by omega, h3⟩, by omega, by omega
  · rintro ⟨⟨h1, h2, h3⟩, h1', h2', -⟩
    use by omega, by omega

end QItemSelectionRange

namespace QItemSelection

open QItemSelectionRange Pieces

variable (model) in
/-- Ranges that are there under a condition. -/
theorem strip (c : Prop) [Decidable c] (top left bottom right : ℤ) (p : P)
    (h : c → (0 ≤ top ∧ top ≤ bottom ∧ bottom < model.rowCount p) ∧
      0 ≤ left ∧ left ≤ right ∧ right < model.columnCount p) :
  ∃ pieces : QItemSelection model,
    (if c then [⟨model.index top left p, model.index bottom right p⟩] else []) = pieces
      ∧ (∀ piece ∈ pieces, piece.isValid = true) ∧ Apart cells pieces
      ∧ ∀ row column q, (row, column, q) ∈ points cells pieces ↔
        c ∧ (top ≤ row ∧ row ≤ bottom) ∧ (left ≤ column ∧ column ≤ right) ∧ p = q
  := by
  by_cases hc : c
  · obtain ⟨⟨h1, h2, h3⟩, h4, h5, h6⟩ := h hc
    obtain ⟨hvalid, hcells⟩ := spans_index model p h1 h2 h3 h4 h5 h6
    rw [if_pos hc]
    refine ⟨_, rfl, ?_, ?_, ?_⟩
    · intro piece hpiece
      rw [List.mem_singleton.mp hpiece]
      apply hvalid
    · apply List.pairwise_singleton
    · intro row column q
      rw [points_cons, points_nil, Set.union_empty, hcells]
      simp [hc]
  · rw [if_neg hc]
    refine ⟨[], rfl, ?_, List.Pairwise.nil, ?_⟩
    · intro piece hpiece
      cases hpiece
    · intro row column q
      rw [points_nil]
      simp [hc]

variable {self : QItemSelection model} {r s : QItemSelectionRange model}
  {other : QItemSelection model}

/-- What `split` leaves of a range are the items outside of the other one, each in one piece. -/
theorem split_ends (h : r.intersects s = true) :
  (∀ piece ∈ split r s, piece.isValid = true) ∧ Apart cells (split r s)
    ∧ points cells (split r s) = r.cells \ s.cells
  := by
  obtain ⟨hr, hs⟩ := isValid_of_intersects h
  obtain ⟨hmodel, hrows, hcolumns⟩ := bounds_of_isValid hr
  obtain ⟨hmodel', hrows', hcolumns'⟩ := bounds_of_isValid hs
  obtain ⟨⟨row, column, p⟩, hin, hin'⟩ := Set.not_disjoint_iff.mp ((intersects_iff hr hs).mp h)
  rw [mem_cells] at hin hin'
  have hparent : r.parent = s.parent := by rw [hin.2.2, hin'.2.2]
  have hnot : ¬ (r.parent ≠ s.parent ∨ r.hasModel ≠ s.hasModel) := by
    rw [hmodel, hmodel']
    simp [hparent]
  obtain ⟨above, habove, hvalid₁, hapart₁, hpoints₁⟩ := strip model (s.top > r.top)
    r.top r.left (s.top - 1) r.right r.parent (fun _ => by omega)
  obtain ⟨below, hbelow, hvalid₂, hapart₂, hpoints₂⟩ := strip model
    (s.bottom < r.bottom) (s.bottom + 1) r.left r.bottom r.right r.parent (fun _ => by omega)
  obtain ⟨before, hbefore, hvalid₃, hapart₃, hpoints₃⟩ := strip model
    (s.left > r.left) (if s.top > r.top then s.top else r.top) r.left
    (if s.bottom < r.bottom then s.bottom else r.bottom) (s.left - 1) r.parent
    (fun _ => by split_ifs <;> omega)
  obtain ⟨behind, hbehind, hvalid₄, hapart₄, hpoints₄⟩ := strip model
    (s.right < r.right) (if s.top > r.top then s.top else r.top) (s.right + 1)
    (if s.bottom < r.bottom then s.bottom else r.bottom) r.right r.parent
    (fun _ => by split_ifs <;> omega)
  have hsplit : split r s = above ++ below ++ before ++ behind := by
    rw [split, if_neg hnot, ← hparent]
    dsimp only
    rw [habove, hbelow, hbefore, hbehind]
  have htop : (if s.top > r.top then s.top else r.top) = max r.top s.top := by
    split_ifs <;> omega
  have hbottom : (if s.bottom < r.bottom then s.bottom else r.bottom) = min r.bottom s.bottom := by
    split_ifs <;> omega
  rw [htop, hbottom] at hpoints₃ hpoints₄
  rw [hsplit]
  constructor
  · intro piece hpiece
    rw [List.mem_append, List.mem_append, List.mem_append] at hpiece
    rcases hpiece with ((hpiece | hpiece) | hpiece) | hpiece
    · apply hvalid₁ piece hpiece
    · apply hvalid₂ piece hpiece
    · apply hvalid₃ piece hpiece
    · apply hvalid₄ piece hpiece
  constructor
  · rw [apart_append_iff, apart_append_iff, apart_append_iff]
    simp only [points_append, Set.disjoint_left, Prod.forall, Set.mem_union, hpoints₁, hpoints₂,
      hpoints₃, hpoints₄]
    refine ⟨⟨⟨hapart₁, hapart₂, ?_⟩, hapart₃, ?_⟩, hapart₄, ?_⟩
    · intro row column q h1 h2
      omega
    · intro row column q h1 h2
      omega
    · intro row column q h1 h2
      omega
  · rw [points_append, points_append, points_append]
    ext ⟨row, column, q⟩
    simp only [Set.mem_union, Set.mem_sdiff, hpoints₁, hpoints₂, hpoints₃, hpoints₄, mem_cells,
      ← hparent]
    constructor
    · rintro (((h1 | h1) | h1) | h1)
      · use ⟨by omega, by omega, h1.2.2.2⟩
        omega
      · use ⟨by omega, by omega, h1.2.2.2⟩
        omega
      · use ⟨by omega, by omega, h1.2.2.2⟩
        omega
      · use ⟨by omega, by omega, h1.2.2.2⟩
        omega
    · rintro ⟨⟨h1, h2, rfl⟩, hout⟩
      simp only [and_true] at hout ⊢
      omega

theorem split_not_intersects (h : r.intersects s = true) :
  ∀ piece ∈ split r s, piece.intersects s = false
  := by
  obtain ⟨hvalid, -, hpoints⟩ := split_ends h
  intro piece hpiece
  have hdisjoint : Disjoint piece.cells s.cells := by
    rw [Set.disjoint_left]
    intro x hx
    have hmem : x ∈ points cells (split r s) := ⟨piece, hpiece, hx⟩
    rw [hpoints] at hmem
    apply hmem.2
  rw [← Bool.not_eq_true, intersects_iff (hvalid piece hpiece) (isValid_of_intersects h).2,
    not_not]
  apply hdisjoint

/-! ### Merging -/

/-- The loop of `merge` that splits the ranges of a selection: those that it has left alone, and
those that are still to come, at whose end `split` appends. -/
def splitRanges (intersection : QItemSelectionRange model) (done todo : QItemSelection model) :
    QItemSelection model :=
  match todo with
  | [] => done
  | range :: todo =>
    if _h : range.intersects intersection then
      splitRanges intersection done (todo ++ split range intersection)
    else splitRanges intersection (done ++ [range]) todo
termination_by (todo.countP (·.intersects intersection), todo.length)
decreasing_by
  · have h_pieces : (split range intersection).countP (·.intersects intersection) = 0 := by
      rw [List.countP_eq_zero]
      intro piece h_piece
      rw [split_not_intersects _h piece h_piece]
      decide
    rw [List.countP_append, h_pieces, List.countP_cons, if_pos _h]
    exact Prod.Lex.left _ _ (Nat.lt_succ_self _)
  · rw [List.countP_cons, if_neg _h]
    exact Prod.Lex.right _ (Nat.lt_succ_self _)

/-- The ranges of the other selection, and what they have in common with those of this one. -/
def collect (self : QItemSelection model) :
    QItemSelection model → QItemSelection model × QItemSelection model
  | [] => ([], [])
  | range :: other =>
    let (newSelection, intersections) := collect self other
    if !range.isValid then (newSelection, intersections)
    else
      (range :: newSelection,
        (self.filter fun at_t => range.intersects at_t).map (·.intersected range) ++ intersections)

/-- `merge`. -/
def merge (self other : QItemSelection model) (command : SelectionFlags) : QItemSelection model :=
  if other = [] ∨ !(command.select || command.deselect || command.toggle) then self
  else
    let (newSelection, intersections) := collect self other
    let (self, newSelection) := intersections.foldl
      (fun (self, newSelection) intersection =>
        (splitRanges intersection [] self,
          if command.toggle then splitRanges intersection [] newSelection else newSelection))
      (self, newSelection)
    if !command.deselect then self ++ newSelection else self

/-- Valid ranges, no two of which have an item in common. -/
structure Wellformed (l : QItemSelection model) : Prop where
  isValid : ∀ range ∈ l, range.isValid = true
  apart : Apart cells l

/-- The loop takes the items of the intersection away. -/
theorem splitRanges_ends {i : QItemSelectionRange model} (hi : i.isValid = true)
    (done todo : QItemSelection model) (h : Wellformed (done ++ todo))
    (hdone : Disjoint (points cells done) i.cells) :
  Wellformed (splitRanges i done todo)
    ∧ points cells (splitRanges i done todo) = points cells (done ++ todo) \ i.cells
  := by
  induction done, todo using splitRanges.induct i with
  | case1 done =>
    rw [splitRanges]
    rw [List.append_nil] at h ⊢
    use h
    rw [sdiff_eq_left.mpr hdone]
  | case2 done range todo hhit ih =>
    obtain ⟨hvalid, hapart, hpoints⟩ := split_ends hhit
    rw [splitRanges, dif_pos hhit]
    have hperm : (done ++ range :: todo).Perm (range :: (done ++ todo)) := List.perm_middle
    have hnext : Wellformed (done ++ (todo ++ split range i)) := by
      constructor
      · intro piece hpiece
        rw [← List.append_assoc, List.mem_append] at hpiece
        rcases hpiece with hpiece | hpiece
        · apply h.isValid piece (hperm.mem_iff.mpr (List.mem_cons_of_mem _ hpiece))
        · apply hvalid piece hpiece
      · rw [← List.append_assoc]
        apply apart_replace ((apart_perm hperm).mp h.apart) hapart hpoints
    obtain ⟨hresult, hresult_points⟩ := ih hnext hdone
    use hresult
    rw [hresult_points, ← List.append_assoc, points_replace hpoints]
    simp only [points_cons, points_append]
    rw [Set.union_left_comm]
  | case3 done range todo hmiss ih =>
    rw [splitRanges, dif_neg hmiss]
    have hrange := h.isValid range (List.mem_append_right _ List.mem_cons_self)
    have hapart : Disjoint range.cells i.cells := by
      rw [intersects_iff hrange hi, not_not] at hmiss
      apply hmiss
    have happend : done ++ range :: todo = done ++ [range] ++ todo :=
      List.append_cons done range todo
    rw [happend] at h ⊢
    apply ih h
    rw [points_append, points_cons, points_nil, Set.union_empty, Set.disjoint_union_left]
    use hdone, hapart

/-- The intersections of two selections, and the other selection. -/
theorem collect_ends (hself : ∀ range ∈ self, range.isValid = true)
    (hother : ∀ range ∈ other, range.isValid = true) :
  ∃ intersections, collect self other = (other, intersections)
    ∧ (∀ i ∈ intersections, i.isValid = true)
    ∧ points cells intersections = points cells self ∩ points cells other
  := by
  induction other with
  | nil =>
    use [], rfl
    constructor
    · intro i hi
      cases hi
    · rw [points_nil, Set.inter_empty]
  | cons range other ih =>
    rw [List.forall_mem_cons] at hother
    obtain ⟨intersections, hcollect, hvalid, hpoints⟩ := ih hother.2
    rw [collect, hcollect]
    dsimp only
    rw [hother.1]
    refine ⟨_, rfl, ?_, ?_⟩
    · intro i hi
      rw [List.mem_append, List.mem_map] at hi
      rcases hi with ⟨r, hr, rfl⟩ | hi
      · obtain ⟨-, hhit⟩ := List.mem_filter.mp hr
        apply (intersected_cells (intersects_symm hhit)).1
      · apply hvalid i hi
    · rw [points_append, hpoints, points_cons, Set.inter_union_distrib_left]
      congr 1
      ext x
      simp only [points, Set.mem_ofPred_eq, Set.mem_inter_iff, List.mem_map, List.mem_filter]
      constructor
      · rintro ⟨-, ⟨r, ⟨hr, hhit⟩, rfl⟩, hx⟩
        rw [(intersected_cells (intersects_symm hhit)).2] at hx
        use ⟨r, hr, hx.1⟩, hx.2
      · rintro ⟨⟨r, hr, hx⟩, hx'⟩
        have hhit : r.intersects range = true := by
          rw [intersects_iff (hself r hr) hother.1, Set.not_disjoint_iff]
          use x
        use r.intersected range, ⟨r, ⟨hr, intersects_symm hhit⟩, rfl⟩
        rw [(intersected_cells hhit).2]
        use hx, hx'

/-- One turn of the outer loop of `merge`. -/
theorem foldl_splitRanges {intersections : QItemSelection model} (toggle : Bool)
    (h : ∀ i ∈ intersections, i.isValid = true) {new : QItemSelection model}
    (hself : Wellformed self) (hnew : Wellformed new) :
  ∃ self' new', intersections.foldl
      (fun (self, newSelection) intersection =>
        (splitRanges intersection [] self,
          if toggle then splitRanges intersection [] newSelection else newSelection))
      (self, new) = (self', new')
    ∧ Wellformed self' ∧ points cells self' = points cells self \ points cells intersections
    ∧ Wellformed new' ∧ points cells new' =
      if toggle then points cells new \ points cells intersections else points cells new
  := by
  induction intersections generalizing self new with
  | nil =>
    use self, new, rfl, hself
    simp [hnew]
  | cons i intersections ih =>
    rw [List.forall_mem_cons] at h
    have hnil : Disjoint (points cells ([] : QItemSelection model)) i.cells := by
      rw [points_nil]
      apply Set.empty_disjoint
    obtain ⟨hfirst, hfirst_points⟩ := splitRanges_ends h.1 [] self hself hnil
    obtain ⟨hsecond, hsecond_points⟩ := splitRanges_ends h.1 [] new hnew hnil
    have hnew' : Wellformed (if toggle then splitRanges i [] new else new) := by
      cases toggle with
      | false => apply hnew
      | true => apply hsecond
    obtain ⟨self', new', hfold, hself', hpoints, hend, hnew_points⟩ := ih h.2 hfirst hnew'
    use self', new', hfold, hself'
    constructor
    · rw [hpoints, hfirst_points, List.nil_append, points_cons, Set.sdiff_sdiff]
    constructor
    · apply hend
    · rw [hnew_points]
      cases toggle with
      | false => rfl
      | true =>
        simp only [if_true]
        rw [hsecond_points, List.nil_append, points_cons, Set.sdiff_sdiff]

/-- What `merge` selects: the set algebra of the three commands. -/
def combined (command : SelectionFlags) (s t : Set (ℤ × ℤ × P)) : Set (ℤ × ℤ × P) :=
  if command.toggle then symmDiff s t else if command.deselect then s \ t else s ∪ t

/-- The selection has the items that it should have, in ranges without a common item. -/
theorem merge_ends (hself : Wellformed self) (hother : Wellformed other)
    (command : SelectionFlags)
    (hcommand : command = ⟨true, false, false⟩ ∨ command = ⟨false, true, false⟩ ∨
      command = ⟨false, false, true⟩) :
  Wellformed (merge self other command)
    ∧ points cells (merge self other command)
      = combined command (points cells self) (points cells other)
  := by
  obtain ⟨intersections, hcollect, hvalid, hpoints⟩ := collect_ends hself.isValid
    hother.isValid
  obtain ⟨self', new, hfold, hself', hself_points, hnew, hnew_points⟩ :=
    foldl_splitRanges command.toggle hvalid hself hother
  rw [hpoints] at hself_points hnew_points
  by_cases hempty : other = []
  · rw [merge, if_pos (Or.inl hempty), hempty, points_nil]
    use hself
    rcases hcommand with rfl | rfl | rfl
    · simp [combined]
    · simp [combined]
    · simp [combined, Set.symmDiff_def]
  · have hsome : (command.select || command.deselect || command.toggle) = true := by
      rcases hcommand with rfl | rfl | rfl <;> rfl
    rw [merge, if_neg (by simp [hempty, hsome]), hcollect]
    dsimp only
    rw [hfold]
    dsimp only
    have happend (hapart : Disjoint (points cells self') (points cells new)) :
        Wellformed (self' ++ new) := by
      constructor
      · intro range hrange
        rcases List.mem_append.mp hrange with hrange | hrange
        · apply hself'.isValid range hrange
        · apply hnew.isValid range hrange
      · rw [apart_append_iff]
        use hself'.apart, hnew.apart, hapart
    have hout : points cells self' = points cells self \ points cells other := by
      rw [hself_points, Set.sdiff_self_inter]
    rcases hcommand with rfl | rfl | rfl
    · -- `Select` appends the other selection as it is.
      have hall : points cells new = points cells other := hnew_points
      constructor
      · apply happend
        rw [hout, hall]
        apply Set.disjoint_sdiff_left
      · change points cells (self' ++ new) = points cells self ∪ points cells other
        rw [points_append, hout, hall, Set.sdiff_union_self]
    · use hself', hout
    · -- `Toggle` takes the common items out of both.
      have hrest : points cells new = points cells other \ points cells self := by
        rw [hnew_points, if_pos rfl, Set.inter_comm, Set.sdiff_self_inter]
      constructor
      · apply happend
        rw [hout, hrest]
        apply Set.disjoint_sdiff_left.mono_right Set.sdiff_subset
      · change points cells (self' ++ new) = symmDiff (points cells self) (points cells other)
        rw [points_append, hout, hrest]
        rfl

/-- The three commands are union, difference and symmetric difference, and `split` is the
difference of two ranges; no item is in two ranges of a result. -/
theorem set_algebra {self other : QItemSelection model} (h_self : Wellformed self)
    (h_other : Wellformed other) :
  (Wellformed (merge self other .Select) ∧ points cells (merge self other .Select)
      = points cells self ∪ points cells other)
    ∧ (Wellformed (merge self other .Deselect) ∧ points cells (merge self other .Deselect)
      = points cells self \ points cells other)
    ∧ (Wellformed (merge self other .Toggle) ∧ points cells (merge self other .Toggle)
      = symmDiff (points cells self) (points cells other))
    ∧ ∀ r s : QItemSelectionRange model, r.intersects s = true →
      Wellformed (split r s) ∧ points cells (split r s) = r.cells \ s.cells
  := by
  constructor
  · apply merge_ends h_self h_other .Select (Or.inl rfl)
  constructor
  · apply merge_ends h_self h_other .Deselect (Or.inr (Or.inl rfl))
  constructor
  · apply merge_ends h_self h_other .Toggle (Or.inr (Or.inr rfl))
  · intro r s h
    obtain ⟨h_valid, h_apart, h_points⟩ := split_ends h
    use ⟨h_valid, h_apart⟩

/-- A table of four rows and four columns. -/
def table : QAbstractItemModel Unit := ⟨(), fun _ => 4, fun _ => 4⟩

/-- The range of the table between two items of it. -/
def tableRange (top left bottom right : ℤ) : QItemSelectionRange table :=
  ⟨table.index top left (), table.index bottom right ()⟩

theorem set_algebra_table :
  points cells (merge [tableRange 0 0 2 2, tableRange 3 3 3 3] [tableRange 1 1 3 2] .Toggle)
    = symmDiff (points cells [tableRange 0 0 2 2, tableRange 3 3 3 3])
      (points cells [tableRange 1 1 3 2])
  := by
  have h_self : Wellformed [tableRange 0 0 2 2, tableRange 3 3 3 3] := by
    constructor
    · intro range h_range
      rw [List.mem_cons, List.mem_singleton] at h_range
      rcases h_range with rfl | rfl <;> rfl
    · rw [apart_cons_iff, points_cons, points_nil, Set.union_empty, disjoint_comm]
      constructor
      · have h_miss : (tableRange 0 0 2 2).intersects (tableRange 3 3 3 3) ≠ true := by decide
        rw [Ne, intersects_iff rfl rfl, not_not] at h_miss
        apply h_miss
      · apply List.pairwise_singleton
  have h_other : Wellformed [tableRange 1 1 3 2] := by
    constructor
    · intro range h_range
      rw [List.mem_singleton.mp h_range]
      rfl
    · apply List.pairwise_singleton
  exact (set_algebra h_self h_other).2.2.1.2

end QItemSelection
