import Mathlib.Algebra.Order.Group.Int

/-!
# Rectangles on a grid

Rectangles of cells, and what the insertion and the removal of lines make of them.  Lines that
are inserted inside a rectangle belong to it; what a removal leaves of a rectangle is a
rectangle again.
-/

/-- The lines from `first` to `last`. -/
structure Lines where
  first : ℤ
  last : ℤ
deriving DecidableEq, Repr

namespace Lines

def contains (l : Lines) (x : ℤ) : Prop :=
  l.first ≤ x ∧ x ≤ l.last

/-- The lines after the insertion of `count` lines at `start`. -/
def insertAt (start count : ℤ) (l : Lines) : Lines where
  first := if start ≤ l.first then l.first + count else l.first
  last := if start ≤ l.last then l.last + count else l.last

/-- What is left of the lines after the removal of those from `start` to `stop`. -/
def removeFrom (start stop : ℤ) (l : Lines) : Lines where
  first :=
    if l.first < start then l.first
    else if l.first ≤ stop then start
    else l.first - (stop - start + 1)
  last :=
    if l.last < start then l.last
    else if l.last ≤ stop then start - 1
    else l.last - (stop - start + 1)

/-- An inserted line belongs to the lines that its neighbours belong to. -/
theorem contains_insertAt {start count : ℤ} (h : 0 < count) (l : Lines) (x : ℤ) :
  (l.insertAt start count).contains x
    ↔ if x < start then l.contains x
      else if x < start + count then l.contains (start - 1) ∧ l.contains start
      else l.contains (x - count)
  := by
  unfold contains insertAt
  grind

/-- A line that is left was there before the removal. -/
theorem contains_removeFrom {start stop : ℤ} (h : start ≤ stop) (l : Lines) (x : ℤ) :
  (l.removeFrom start stop).contains x
    ↔ l.contains (if x < start then x else x + (stop - start + 1))
  := by
  unfold contains removeFrom
  grind

end Lines

/-- A rectangle of cells. -/
structure Rect where
  rows : Lines
  columns : Lines
deriving DecidableEq, Repr

namespace Rect

def contains (r : Rect) (x y : ℤ) : Prop :=
  r.columns.contains x ∧ r.rows.contains y

/-- Two rectangles have a cell in common. -/
def Overlaps (r s : Rect) : Prop :=
  ∃ x y, r.contains x y ∧ s.contains x y

def Nonempty (r : Rect) : Prop :=
  r.rows.first ≤ r.rows.last ∧ r.columns.first ≤ r.columns.last

instance (r : Rect) : Decidable r.Nonempty :=
  inferInstanceAs (Decidable (_ ∧ _))

/-- A rectangle of one cell. -/
def IsCell (r : Rect) : Prop :=
  r.rows.first = r.rows.last ∧ r.columns.first = r.columns.last

instance (r : Rect) : Decidable r.IsCell :=
  inferInstanceAs (Decidable (_ ∧ _))

def insertRows (start count : ℤ) (r : Rect) : Rect :=
  { r with rows := r.rows.insertAt start count }

def insertColumns (start count : ℤ) (r : Rect) : Rect :=
  { r with columns := r.columns.insertAt start count }

def removeRows (start stop : ℤ) (r : Rect) : Rect :=
  { r with rows := r.rows.removeFrom start stop }

def removeColumns (start stop : ℤ) (r : Rect) : Rect :=
  { r with columns := r.columns.removeFrom start stop }

theorem Overlaps.symm {r s : Rect} (h : r.Overlaps s) :
  s.Overlaps r
  := by
  obtain ⟨x, y, hr, hs⟩ := h
  exact ⟨x, y, hs, hr⟩

/-- Rectangles that overlap after the insertion of rows did so before. -/
theorem Overlaps.of_insertRows {start count : ℤ} (h : 0 < count) {r s : Rect}
    (hrs : (r.insertRows start count).Overlaps (s.insertRows start count)) :
  r.Overlaps s
  := by
  obtain ⟨x, y, ⟨hrx, hry⟩, hsx, hsy⟩ := hrs
  rw [insertRows, Lines.contains_insertAt h] at hry hsy
  split at hry
  next hlt =>
    rw [if_pos hlt] at hsy
    exact ⟨x, y, ⟨hrx, hry⟩, hsx, hsy⟩
  next hlt =>
    rw [if_neg hlt] at hsy
    split at hry
    next hband =>
      rw [if_pos hband] at hsy
      exact ⟨x, start, ⟨hrx, hry.2⟩, hsx, hsy.2⟩
    next hband =>
      rw [if_neg hband] at hsy
      exact ⟨x, y - count, ⟨hrx, hry⟩, hsx, hsy⟩

/-- Rectangles that overlap after the insertion of columns did so before. -/
theorem Overlaps.of_insertColumns {start count : ℤ} (h : 0 < count) {r s : Rect}
    (hrs : (r.insertColumns start count).Overlaps (s.insertColumns start count)) :
  r.Overlaps s
  := by
  obtain ⟨x, y, ⟨hrx, hry⟩, hsx, hsy⟩ := hrs
  rw [insertColumns, Lines.contains_insertAt h] at hrx hsx
  split at hrx
  next hlt =>
    rw [if_pos hlt] at hsx
    exact ⟨x, y, ⟨hrx, hry⟩, hsx, hsy⟩
  next hlt =>
    rw [if_neg hlt] at hsx
    split at hrx
    next hband =>
      rw [if_pos hband] at hsx
      exact ⟨start, y, ⟨hrx.2, hry⟩, hsx.2, hsy⟩
    next hband =>
      rw [if_neg hband] at hsx
      exact ⟨x - count, y, ⟨hrx, hry⟩, hsx, hsy⟩

/-- Rectangles that overlap after the removal of rows did so before. -/
theorem Overlaps.of_removeRows {start stop : ℤ} (h : start ≤ stop) {r s : Rect}
    (hrs : (r.removeRows start stop).Overlaps (s.removeRows start stop)) :
  r.Overlaps s
  := by
  obtain ⟨x, y, ⟨hrx, hry⟩, hsx, hsy⟩ := hrs
  rw [removeRows, Lines.contains_removeFrom h] at hry hsy
  exact ⟨x, _, ⟨hrx, hry⟩, hsx, hsy⟩

/-- Rectangles that overlap after the removal of columns did so before. -/
theorem Overlaps.of_removeColumns {start stop : ℤ} (h : start ≤ stop) {r s : Rect}
    (hrs : (r.removeColumns start stop).Overlaps (s.removeColumns start stop)) :
  r.Overlaps s
  := by
  obtain ⟨x, y, ⟨hrx, hry⟩, hsx, hsy⟩ := hrs
  rw [removeColumns, Lines.contains_removeFrom h] at hrx hsx
  exact ⟨_, y, ⟨hrx, hry⟩, hsx, hsy⟩

end Rect
