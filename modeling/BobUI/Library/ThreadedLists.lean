import Mathlib.Data.List.Nodup
import Mathlib.Logic.Function.Basic

/-!
# Lists threaded through cells

The cells of a storage name the cells that follow them.  From one cell on, such links visit a list
of cells, and stop at the first place that is none of them.
-/

namespace ThreadedLists

/-- From `start` on, the links visit these cells and end at `stop`. -/
def Visits (link : ℕ → Option ℕ) : ℕ → List ℕ → ℕ → Prop
  | start, [], stop => start = stop
  | start, cell :: cells, stop =>
    start = cell ∧ ∃ next, link cell = some next ∧ Visits link next cells stop

variable {link link' : ℕ → Option ℕ} {start stop : ℕ} {cells : List ℕ}

/-- Other cells do not matter. -/
theorem Visits.congr (h : Visits link start cells stop)
    (hlinks : ∀ cell ∈ cells, link' cell = link cell) :
  Visits link' start cells stop
  := by
  induction cells generalizing start with
  | nil => exact h
  | cons cell cells ih =>
    obtain ⟨hstart, next, hnext, hrest⟩ := h
    use hstart, next
    rw [hlinks cell List.mem_cons_self]
    use hnext
    apply ih hrest
    intro c hc
    exact hlinks c (List.mem_cons_of_mem cell hc)

/-- A cell that is linked to the list comes first. -/
theorem Visits.push {cell : ℕ} (h : Visits link start cells stop) (hcell : cell ∉ cells)
    (hlink : link' cell = some start) (hlinks : ∀ c, c ≠ cell → link' c = link c) :
  Visits link' cell (cell :: cells) stop
  := by
  use rfl, start, hlink
  apply h.congr
  intro c hc
  apply hlinks
  rintro rfl
  exact hcell hc

/-- Cells that each name the one behind them. -/
theorem visits_range {n : ℕ} (h : ∀ i, start ≤ i → i < start + n → link i = some (i + 1)) :
  Visits link start (List.range' start n) (start + n)
  := by
  induction n generalizing start with
  | zero => rfl
  | succ n ih =>
    use rfl, start + 1, h start (Nat.le_refl start) (by omega)
    rw [Nat.add_comm n 1, ← Nat.add_assoc]
    apply ih
    intro i hstart hi
    exact h i (by omega) (by omega)

end ThreadedLists
