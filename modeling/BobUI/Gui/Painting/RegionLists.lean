import BobUI.Gui.Painting.RegionBands

/-!
# Regions and their lists

A region is valid if its rectangles are banded, its extents are their bounding rectangle and its
inner rectangle lies inside.  While regions are joined, the list of a region holds some rectangles;
a rectangle that has been merged is written in the place of one of them.
-/

open Pieces QRect

namespace QRegionPrivate

structure Valid (d : QRegionPrivate) : Prop where
  pos : d.numRects ≠ 0
  size : d.numRects ≠ 1 → d.numRects ≤ d.rects.length
  banded : Banded d.rectangles
  bounds : Bounds (points QRect.points d.rectangles) d.extents
  inner : d.innerRect.points ⊆ points QRect.points d.rectangles

/-- The list begins with the rectangles `l`; the inner rectangle lies in `s`. -/
structure Holds (d : QRegionPrivate) (l : List QRect) (e : QRect) (s : Set (ℤ × ℤ)) : Prop where
  numRects : d.numRects = l.length
  rects : ∃ slack, d.rects = l ++ slack
  extents : d.extents = e
  inner : d.innerRect.points ⊆ s

variable {d d' r : QRegionPrivate} {l l₀ p q : List QRect} {a b e x y : QRect} {s : Set (ℤ × ℤ)}

theorem points_singleton :
  points QRect.points [a] = a.points
  := by
  rw [points_cons, points_nil, Set.union_empty]

/-- A region with the bounding rectangle and one of its rectangles. -/
theorem valid_of_banded (h : d.rectangles = p ++ [a]) (hbanded : Banded (p ++ [a]))
    (hsize : d.numRects = (p ++ [a]).length) (hextents : d.extents = p.foldr united a)
    (hinner : d.innerRect ∈ p ++ [a]) :
  d.Valid
  := by
  constructor
  · rw [hsize, List.length_append, List.length_singleton]
    apply Nat.succ_ne_zero
  · intro hone
    rw [hsize, ← h, rectangles, if_neg hone]
    apply List.length_take_le'
  · rw [h]
    apply hbanded
  · rw [h, hextents]
    apply bounds_list hbanded
  · rw [h]
    intro z hz
    exact ⟨d.innerRect, hinner, hz⟩

namespace Valid

theorem length_rectangles (h : d.Valid) :
  d.rectangles.length = d.numRects
  := by
  rw [rectangles]
  split_ifs with hone
  · rw [hone]
    rfl
  · rw [List.length_take]
    apply Nat.min_eq_left (h.size hone)

theorem exists_cons (h : d.Valid) :
  ∃ a q, d.rectangles = a :: q
  := by
  apply List.exists_cons_of_length_pos
  rw [h.length_rectangles]
  apply Nat.pos_of_ne_zero h.pos

theorem exists_cons_cons (h : d.Valid) (hone : d.numRects ≠ 1) :
  ∃ a b q, d.rectangles = a :: b :: q
  := by
  obtain ⟨a, q, hrects⟩ := h.exists_cons
  cases q with
  | nil =>
    have hlength := h.length_rectangles
    rw [hrects] at hlength
    exact absurd hlength.symm hone
  | cons b q =>
    use a, b, q

theorem exists_concat (h : d.Valid) :
  ∃ p a, d.rectangles = p ++ [a]
  := by
  rcases List.eq_nil_or_concat d.rectangles with hnil | ⟨p, a, hrects⟩
  · obtain ⟨a, q, hrects⟩ := h.exists_cons
    rw [hrects] at hnil
    cases hnil
  · use p, a
    rw [hrects, List.concat_eq_append]

theorem exists_concat_concat (h : d.Valid) (hone : d.numRects ≠ 1) :
  ∃ p a b, d.rectangles = p ++ [a, b]
  := by
  obtain ⟨p, b, hrects⟩ := h.exists_concat
  rcases List.eq_nil_or_concat p with rfl | ⟨p, a, rfl⟩
  · have hlength := h.length_rectangles
    rw [hrects] at hlength
    exact absurd hlength.symm hone
  · use p, a, b
    rw [hrects, List.concat_eq_append, List.append_assoc]
    rfl

/-- The rectangles of a region that has more than one are those of the list. -/
theorem rect_of_rectangles (hone : d.numRects ≠ 1) (hrects : d.rectangles = p ++ a :: q) :
  d.rect p.length = a
  := by
  have hlist : d.rects = p ++ a :: (q ++ d.rects.drop d.numRects) := by
    rw [rectangles, if_neg hone] at hrects
    rw [← List.cons_append, ← List.append_assoc, ← hrects, List.take_append_drop]
  rw [rect, hlist]
  simp

/-- The last rectangle, as `canAppend` and `canPrepend` find it. -/
theorem last_eq (h : d.Valid) (hrects : d.rectangles = p ++ [a]) :
  (if d.numRects = 1 then d.extents else d.rect (d.numRects - 1)) = a
  := by
  split_ifs with hone
  · rw [rectangles, if_pos hone] at hrects
    have hlast := congrArg List.getLast? hrects
    rw [List.getLast?_concat] at hlast
    apply Option.some_inj.mp hlast
  · rw [← h.length_rectangles, hrects]
    simp only [List.length_append, List.length_singleton, Nat.add_sub_cancel]
    apply rect_of_rectangles hone hrects

/-- The first rectangle. -/
theorem first_eq (hrects : d.rectangles = a :: q) :
  (if d.numRects = 1 then d.extents else d.rect 0) = a
  := by
  split_ifs with hone
  · rw [rectangles, if_pos hone] at hrects
    apply (List.cons_eq_cons.mp hrects).1
  · apply rect_of_rectangles (p := []) hone hrects

theorem holds (h : d.Valid) (hone : d.numRects ≠ 1)
    (hpoints : points QRect.points d.rectangles ⊆ s) :
  d.Holds d.rectangles d.extents s
  := by
  constructor
  · apply h.length_rectangles.symm
  · use d.rects.drop d.numRects
    rw [rectangles, if_neg hone, List.take_append_drop]
  · rfl
  · apply h.inner.trans hpoints

/-- `vectorize` writes the extents into the list. -/
theorem vectorize_holds (h : d.Valid) (hpoints : points QRect.points d.rectangles ⊆ s) :
  d.vectorize.Holds d.rectangles d.extents s
  := by
  by_cases hone : d.numRects = 1
  · rw [vectorize, if_pos hone]
    constructor
    · apply h.length_rectangles.symm
    · rw [rectangles, if_pos hone]
      cases hrects : d.rects with
      | nil =>
        use []
        rfl
      | cons a rest =>
        use rest
        rfl
    · rfl
    · apply h.inner.trans hpoints
  · rw [vectorize, if_neg hone]
    apply h.holds hone hpoints

end Valid

/-! ### Writing rectangles -/

theorem updateInnerRect_fields (d : QRegionPrivate) (r : QRect) :
  (d.updateInnerRect r).numRects = d.numRects ∧ (d.updateInnerRect r).rects = d.rects
    ∧ (d.updateInnerRect r).extents = d.extents
  := by
  rw [updateInnerRect]
  split_ifs
  · exact ⟨rfl, rfl, rfl⟩
  · exact ⟨rfl, rfl, rfl⟩

theorem updateInnerRect_inner (h : d.innerRect.points ⊆ s) (hr : x.points ⊆ s) :
  (d.updateInnerRect x).innerRect.points ⊆ s
  := by
  rw [updateInnerRect]
  split_ifs
  · exact hr
  · exact h

theorem points_subset (h : SameRegion l₀ l) (hx : x ∈ l) :
  x.points ⊆ points QRect.points l₀
  := by
  rw [← h.points]
  intro z hz
  exact ⟨x, hx, hz⟩

namespace Holds

theorem rect_eq (h : d.Holds (p ++ x :: q) e s) :
  d.rect p.length = x
  := by
  obtain ⟨slack, hrects⟩ := h.rects
  rw [rect, hrects]
  simp

theorem write (h : d.Holds (p ++ x :: q) e s) (hy : y.points ⊆ s) :
  ((d.write y (.rects p.length)).updateInnerRect y).Holds (p ++ y :: q) e s
  := by
  obtain ⟨hnum, hlist, hextents⟩ := (d.write y (.rects p.length)).updateInnerRect_fields y
  constructor
  · rw [hnum, List.length_append, List.length_cons]
    rw [QRegionPrivate.write, h.numRects, List.length_append, List.length_cons]
  · obtain ⟨slack, hrects⟩ := h.rects
    use slack
    rw [hlist, QRegionPrivate.write, hrects]
    simp
  · rw [hextents]
    apply h.extents
  · apply updateInnerRect_inner
    · apply h.inner
    · apply hy

/-- The rectangle before the last one, and before the first of a block. -/
theorem before_eq (h : d.Holds (p ++ x :: q) e s) :
  (if 1 ≤ p.length then some (d.rect (p.length - 1)) else none) = p.getLast?
  := by
  rcases List.eq_nil_or_concat p with rfl | ⟨p, c, rfl⟩
  · rfl
  · rw [List.concat_eq_append] at h ⊢
    rw [List.append_assoc, List.singleton_append] at h
    rw [List.getLast?_concat, List.length_append, List.length_singleton,
      if_pos (Nat.le_add_left 1 _), Nat.add_sub_cancel, h.rect_eq]

/-- The rectangle behind another one. -/
theorem behind_eq (h : d.Holds (p ++ x :: q) e s) :
  (if p.length + 1 < d.numRects then some (d.rect (p.length + 1)) else none) = q.head?
  := by
  rw [h.numRects, List.length_append, List.length_cons]
  cases q with
  | nil =>
    rw [if_neg (by rw [List.length_nil]; omega)]
    rfl
  | cons c q =>
    have hc : d.Holds ((p ++ [x]) ++ c :: q) e s := by
      rw [List.append_assoc]
      exact h
    have hrect := hc.rect_eq
    rw [List.length_append, List.length_singleton] at hrect
    rw [if_pos (by rw [List.length_cons]; omega), hrect, List.head?_cons]

theorem withExtents (h : d.Holds l e s) :
  { d with extents := x }.Holds l x s
  := ⟨h.numRects, h.rects, rfl, h.inner⟩

/-- One rectangle less. -/
theorem dropLast (h : d.Holds (p ++ [x]) e s) :
  { d with numRects := d.numRects - 1 }.Holds p e s
  := by
  obtain ⟨slack, hrects⟩ := h.rects
  constructor
  · change d.numRects - 1 = p.length
    rw [h.numRects, List.length_append, List.length_singleton, Nat.add_sub_cancel]
  · use x :: slack
    change d.rects = p ++ x :: slack
    rw [hrects, List.append_assoc, List.singleton_append]
  · apply h.extents
  · apply h.inner

end Holds

/-! ### Merging -/

section Merging

variable (h : d.Holds (p ++ x :: q) e (points QRect.points l₀)) {m m' : List QRect}

include h

theorem mergeFromRight_holds (hsame : SameRegion l₀ (m ++ x :: b :: m'))
    (hmerge : d.mergeFromRight (.rects p.length) b = some d') :
  ∃ y, d'.Holds (p ++ y :: q) e (points QRect.points l₀) ∧ SameRegion l₀ (m ++ y :: m')
  := by
  rw [mergeFromRight, read, h.rect_eq] at hmerge
  split_ifs at hmerge with hcan
  cases hmerge
  have hnew := hsame.trans (merge_right hsame.banded hcan)
  exact ⟨_, h.write (points_subset hnew (by simp)), hnew⟩

theorem mergeFromBelow_holds (hsame : SameRegion l₀ (m ++ x :: b :: m')) {t u : Option QRect}
    (ht : t = m.getLast?) (hu : u = m'.head?)
    (hmerge : d.mergeFromBelow (.rects p.length) b t u = some d') :
  ∃ y, d'.Holds (p ++ y :: q) e (points QRect.points l₀) ∧ SameRegion l₀ (m ++ y :: m')
  := by
  rw [mergeFromBelow, read, h.rect_eq, ht, hu] at hmerge
  split_ifs at hmerge with hcan
  cases hmerge
  have hnew := hsame.trans (merge_below hsame.banded hcan)
  exact ⟨_, h.write (points_subset hnew (by simp)), hnew⟩

end Merging

/-- The merged rectangle is the left one with another right side, or the right one with another
left side. -/
theorem canMergeFromRight_eq (h : canMergeFromRight a b) :
  { b with left := a.left } = { a with right := b.right }
  := by
  rw [canMergeFromRight, Bool.and_eq_true, Bool.and_eq_true, decide_eq_true_iff,
    decide_eq_true_iff] at h
  obtain ⟨⟨htop, hbottom⟩, -⟩ := h
  rw [QRect.mk.injEq]
  exact ⟨rfl, htop, rfl, hbottom⟩

theorem canMergeFromBelow_eq {t u : Option QRect} (h : canMergeFromBelow a b t u) :
  { b with top := a.top } = { a with bottom := b.bottom }
  := by
  rw [canMergeFromBelow] at h
  split_ifs at h
  rw [Bool.and_eq_true, Bool.and_eq_true, decide_eq_true_iff, decide_eq_true_iff,
    decide_eq_true_iff] at h
  obtain ⟨⟨-, hleft⟩, hright⟩ := h
  rw [QRect.mk.injEq]
  exact ⟨hleft.symm, rfl, hright.symm, rfl⟩

section Merging

variable (h : d.Holds (p ++ x :: q) e (points QRect.points l₀)) {m m' : List QRect}

include h

theorem mergeFromLeft_holds (hsame : SameRegion l₀ (m ++ b :: x :: m'))
    (hmerge : d.mergeFromLeft (.rects p.length) b = some d') :
  d'.Holds (p ++ { x with left := b.left } :: q) e (points QRect.points l₀)
    ∧ SameRegion l₀ (m ++ { x with left := b.left } :: m')
  := by
  rw [mergeFromLeft, read, h.rect_eq] at hmerge
  split_ifs at hmerge with hcan
  cases hmerge
  have hnew := hsame.trans (merge_right hsame.banded hcan)
  rw [← canMergeFromRight_eq hcan] at hnew
  exact ⟨h.write (points_subset hnew (by simp)), hnew⟩

theorem mergeFromAbove_holds (hsame : SameRegion l₀ (m ++ b :: x :: m')) {t u : Option QRect}
    (ht : t = m.getLast?) (hu : u = m'.head?)
    (hmerge : d.mergeFromAbove (.rects p.length) b u t = some d') :
  d'.Holds (p ++ { x with top := b.top } :: q) e (points QRect.points l₀)
    ∧ SameRegion l₀ (m ++ { x with top := b.top } :: m')
  := by
  rw [mergeFromAbove, read, h.rect_eq, ht, hu] at hmerge
  split_ifs at hmerge with hcan
  cases hmerge
  have hnew := hsame.trans (merge_below hsame.banded hcan)
  rw [← canMergeFromBelow_eq hcan] at hnew
  exact ⟨h.write (points_subset hnew (by simp)), hnew⟩

end Merging

/-! ### The bounds -/

theorem updateBounds_fields (d r : QRegionPrivate) :
  (updateBounds d r).numRects = d.numRects ∧ (updateBounds d r).rects = d.rects
    ∧ (updateBounds d r).extents = d.extents.united r.extents
  := by
  rw [updateBounds]
  split_ifs
  · exact ⟨rfl, rfl, rfl⟩
  · exact ⟨rfl, rfl, rfl⟩

theorem updateBounds_inner (h : d.innerRect.points ⊆ s) (hr : r.innerRect.points ⊆ s) :
  (updateBounds d r).innerRect.points ⊆ s
  := by
  rw [updateBounds]
  split_ifs
  · exact hr
  · exact h

theorem updateBounds_holds (h : d.Holds l e s) (hr : r.innerRect.points ⊆ s) :
  (updateBounds d r).Holds l (e.united r.extents) s
  := by
  obtain ⟨hnum, hrects, hextents⟩ := updateBounds_fields d r
  constructor
  · rw [hnum]
    apply h.numRects
  · rw [hrects]
    apply h.rects
  · rw [hextents, h.extents]
  · apply updateBounds_inner h.inner hr

/-- The rectangles in the list are those of the region if it has more than one. -/
theorem Holds.rectangles_eq (h : d.Holds l e s) (hpoints : points QRect.points l = s)
    (hbanded : Banded l) (hbounds : Bounds s e) :
  d.rectangles = l
  := by
  rw [rectangles]
  split_ifs with hone
  · have hlength := h.numRects
    rw [hone] at hlength
    obtain ⟨x, rfl⟩ := List.length_eq_one_iff.mp hlength.symm
    have hx := bounds_points (hbanded.nonempty x List.mem_cons_self)
    rw [points_singleton] at hpoints
    rw [hpoints] at hx
    rw [h.extents, hbounds.unique hx]
  · obtain ⟨slack, hrects⟩ := h.rects
    rw [hrects, h.numRects]
    simp

/-- The region `u` covers the points of two regions. -/
structure Unites (d r u : QRegionPrivate) : Prop where
  valid : u.Valid
  points : points QRect.points u.rectangles
    = points QRect.points d.rectangles ∪ points QRect.points r.rectangles

theorem Valid.bounds_union (h : d.Valid) (hr : r.Valid) :
  Bounds (points QRect.points d.rectangles ∪ points QRect.points r.rectangles)
    (d.extents.united r.extents)
  := h.bounds.union hr.bounds

theorem Holds.unites {u : QRegionPrivate} (h : u.Holds l (d.extents.united r.extents) s)
    (hd : d.Valid) (hr : r.Valid)
    (hs : s = points QRect.points d.rectangles ∪ points QRect.points r.rectangles)
    (hpoints : points QRect.points l = s) (hbanded : Banded l) (hpos : l ≠ []) :
  Unites d r u
  := by
  have hbounds := hd.bounds_union hr
  rw [← hs] at hbounds
  have hrectangles := h.rectangles_eq hpoints hbanded hbounds
  constructor
  · constructor
    · rw [h.numRects]
      intro hlength
      apply hpos (List.length_eq_zero_iff.mp hlength)
    · intro _
      obtain ⟨slack, hrects⟩ := h.rects
      rw [h.numRects, hrects, List.length_append]
      apply Nat.le_add_right
    · rw [hrectangles]
      apply hbanded
    · rw [hrectangles, hpoints, h.extents]
      apply hbounds
    · rw [hrectangles, hpoints]
      apply h.inner
  · rw [hrectangles, hpoints, hs]

/-! ### One rectangle -/

theorem united_eq_self (h : x.Nonempty) (hb : b.Nonempty) (hpoints : b.points ⊆ x.points) :
  x.united b = x
  := by
  have hbounds := (bounds_points h).union (bounds_points hb)
  rw [Set.union_eq_self_of_subset_right hpoints] at hbounds
  apply hbounds.unique (bounds_points h)

theorem rectangles_of_one (h : d.numRects = 1) :
  d.rectangles = [d.extents]
  := by
  rw [rectangles, if_pos h]

theorem Valid.nonempty_extents (h : d.Valid) (hone : d.numRects = 1) :
  d.extents.Nonempty
  := by
  apply h.banded.nonempty
  rw [rectangles_of_one hone]
  apply List.mem_cons_self

/-- A region that is left with one rectangle. -/
theorem unites_of_one {u : QRegionPrivate} (hnum : u.numRects = 1) (hx : x.Nonempty)
    (hpoints : x.points
      = points QRect.points d.rectangles ∪ points QRect.points r.rectangles)
    (hextents : u.extents = x) (hinner : u.innerRect.points ⊆ x.points) :
  Unites d r u
  := by
  have hrectangles := rectangles_of_one hnum
  rw [hextents] at hrectangles
  constructor
  · constructor
    · rw [hnum]
      apply Nat.one_ne_zero
    · intro hne
      exact absurd hnum hne
    · rw [hrectangles]
      apply Banded.singleton hx
    · rw [hrectangles, points_singleton, hextents]
      apply bounds_points hx
    · rw [hrectangles, points_singleton]
      exact hinner
  · rw [hrectangles, points_singleton, hpoints]

/-- A region of one rectangle is merged with another one. -/
theorem Valid.extents_unites (h : d.Valid) (hr : r.Valid) (hone : d.numRects = 1)
    (hone' : r.numRects = 1) (hsame : SameRegion l₀ [x])
    (hl₀ : points QRect.points l₀
      = points QRect.points d.rectangles ∪ points QRect.points r.rectangles)
    {u : QRegionPrivate} (hu : u = (d.write x .extents).updateInnerRect x) :
  u.numRects = 1 ∧ Unites d r { u with extents := u.extents.united r.extents }
  := by
  obtain ⟨hnum, -, hextents⟩ := (d.write x .extents).updateInnerRect_fields x
  have hx := hsame.banded.nonempty x List.mem_cons_self
  have hpoints := hsame.points
  rw [points_singleton, hl₀] at hpoints
  rw [← hu] at hnum hextents
  have hone_u : u.numRects = 1 := hnum.trans hone
  refine ⟨hone_u, ?_⟩
  apply unites_of_one (x := x) _ hx hpoints
  · change u.extents.united r.extents = x
    rw [hextents]
    apply united_eq_self hx (hr.nonempty_extents hone')
    rw [hpoints, rectangles_of_one hone', points_singleton]
    apply Set.subset_union_right
  · change u.innerRect.points ⊆ x.points
    rw [hu]
    apply updateInnerRect_inner
    · apply h.inner.trans
      rw [hpoints]
      apply Set.subset_union_left
    · apply subset_rfl
  · exact hone_u

end QRegionPrivate
