import Mathlib.Data.Set.Lattice
import Mathlib.Order.CompletePartialOrder
import Mathlib.Order.ConditionallyCompleteLattice.Basic

/-!
# Lists of pieces

Lists whose members stand for sets.  A list covers the points of its pieces; where no two pieces
have a point in common, a piece can be replaced by pieces of it.
-/

namespace Pieces

variable {α β : Type*} (den : α → Set β)

/-- The points of the pieces. -/
def points (l : List α) : Set β :=
  {x | ∃ a ∈ l, x ∈ den a}

/-- No two pieces have a point in common. -/
def Apart (l : List α) : Prop :=
  l.Pairwise fun a b => Disjoint (den a) (den b)

variable {den} {l l' pieces : List α} {a : α} {s : Set β}

@[simp]
theorem points_nil :
  points den [] = ∅
  := by
  ext x
  simp [points]

@[simp]
theorem points_cons :
  points den (a :: l) = den a ∪ points den l
  := by
  ext x
  simp [points]

@[simp]
theorem points_append :
  points den (l ++ l') = points den l ∪ points den l'
  := by
  ext x
  simp only [points, List.mem_append, Set.mem_union, Set.mem_ofPred_eq, or_and_right, exists_or]

theorem disjoint_points_iff :
  Disjoint (points den l) s ↔ ∀ a ∈ l, Disjoint (den a) s
  := by
  simp only [Set.disjoint_left]
  constructor
  · intro h a ha x hx
    apply h ⟨a, ha, hx⟩
  · rintro h x ⟨a, ha, hx⟩
    apply h a ha hx

theorem apart_cons_iff :
  Apart den (a :: l) ↔ Disjoint (points den l) (den a) ∧ Apart den l
  := by
  rw [Apart, List.pairwise_cons, disjoint_points_iff]
  simp only [disjoint_comm]
  rfl

theorem apart_append_iff :
  Apart den (l ++ l') ↔ Apart den l ∧ Apart den l' ∧ Disjoint (points den l) (points den l')
  := by
  rw [Apart, List.pairwise_append, disjoint_points_iff]
  simp only [disjoint_comm (b := points den l'), disjoint_points_iff]
  simp only [disjoint_comm]
  rfl

theorem apart_perm (h : l.Perm l') :
  Apart den l ↔ Apart den l'
  := h.pairwise_iff fun hab => hab.symm

/-- The parts of a piece that lie outside of a set are put in its place. -/
theorem apart_replace (h : Apart den (a :: l)) (hpieces : Apart den pieces)
    (hpoints : points den pieces = den a \ s) :
  Apart den (l ++ pieces)
  := by
  rw [apart_cons_iff] at h
  rw [apart_append_iff, hpoints]
  use h.2, hpieces
  apply Set.disjoint_of_subset_right Set.sdiff_subset h.1

theorem points_replace (hpoints : points den pieces = den a \ s) :
  points den (l ++ pieces) \ s = points den (a :: l) \ s
  := by
  rw [points_append, points_cons, hpoints]
  ext x
  simp only [Set.mem_sdiff, Set.mem_union]
  tauto

end Pieces
