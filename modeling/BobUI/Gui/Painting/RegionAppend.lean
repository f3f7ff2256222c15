import BobUI.Gui.Painting.RegionLists

/-!
# Appending a region

`append` of a region that lies behind another one.  At most three rectangles are merged at the seam;
the last rectangle that stays in place and the rectangles that are left to copy are banded, and
cover the points of both regions.
-/

open Pieces QRect

namespace QRegionPrivate

variable {d d' r : QRegionPrivate} {l l₀ p q m : List QRect} {a b b₀ b₁ e x : QRect}
  {s : Set (ℤ × ℤ)}

/-- The rectangles that `append` has to copy: with them the region covers the points of `l₀`. -/
structure Appends (r : QRegionPrivate) (e : QRect) (l₀ : List QRect) (s : Appending)
    (p : List QRect) (x : QRect) (m : List QRect) : Prop where
  holds : s.region.Holds (p ++ [x]) e (points QRect.points l₀)
  destRect : s.destRect = p.length + 1
  rest : ∃ slack, r.rects.drop s.srcRect = m ++ slack
  numAppend : s.numAppend = m.length
  same : SameRegion l₀ (p ++ x :: m)

theorem head_of_rest {i n : ℕ} {rects slack : List QRect} (h : rects.drop i = m ++ slack)
    (hlength : n = m.length) :
  (if n > 0 then some (rects.getD i .null) else none) = m.head?
  := by
  have hget := congrArg (fun l => l[0]?) h
  rw [List.getElem?_drop, Nat.add_zero] at hget
  cases m with
  | nil =>
    rw [hlength]
    rfl
  | cons c m =>
    rw [if_pos (by rw [hlength]; apply Nat.succ_pos), List.getD_eq_getElem?_getD, hget]
    rfl

/-- The last rectangle is merged with the one before it. -/
theorem mergeLast_holds (h : d.Holds (p ++ [x]) e (points QRect.points l₀))
    (hsame : SameRegion l₀ (p ++ x :: m)) (hp : p ≠ []) {u : Option QRect} (hu : u = m.head?)
    (hmerge : d.mergeFromBelow (.rects (p.length - 1)) (d.rect p.length)
      (if p.length > 1 then some (d.rect (p.length - 2)) else none) u = some d') :
  ∃ p' z, { d' with numRects := d'.numRects - 1 }.Holds (p' ++ [z]) e (points QRect.points l₀)
    ∧ p.length = p'.length + 1 ∧ SameRegion l₀ (p' ++ z :: m)
  := by
  rcases List.eq_nil_or_concat p with rfl | ⟨p, y, rfl⟩
  · contradiction
  · rw [List.concat_eq_append] at *
    rw [h.rect_eq] at hmerge
    rw [List.append_assoc, List.singleton_append] at hsame h
    rw [List.length_append, List.length_singleton, Nat.add_sub_cancel] at hmerge
    have hnext : (if p.length + 1 > 1 then some (d.rect (p.length + 1 - 2)) else none)
        = p.getLast? := by
      rw [← h.before_eq]
      apply if_congr
      · omega
      · rfl
      · rfl
    obtain ⟨z, hd, hnew⟩ := mergeFromBelow_holds h hsame hnext hu hmerge
    use p, z
    refine ⟨?_, List.length_append, hnew⟩
    apply Holds.dropLast (x := x)
    rw [List.append_assoc]
    exact hd

theorem mergeLastBand_appends {s : Appending} (h : Appends r e l₀ s p x m) :
  ∃ p' x' m', Appends r e l₀ (mergeLastBand s r p.length) p' x' m'
  := by
  obtain ⟨hholds, hdest, ⟨slack, hrest⟩, hnum, hsame⟩ := h
  have hself : Appends r e l₀ s p x m := ⟨hholds, hdest, ⟨slack, hrest⟩, hnum, hsame⟩
  have hnumRects := hholds.numRects
  rw [List.length_append, List.length_singleton] at hnumRects
  have htwo : (s.region.numRects > 2) = (p.length > 1) := by
    rw [hnumRects]
    apply propext
    apply Nat.succ_lt_succ_iff
  rw [mergeLastBand]
  simp only [htwo]
  by_cases hp : p = []
  · rw [if_neg (by rw [hnumRects, hp]; apply lt_irrefl)]
    exact ⟨_, _, _, hself⟩
  · rw [if_pos (by rw [hnumRects]; apply Nat.succ_lt_succ (List.length_pos_iff.mpr hp))]
    cases hmerge : s.region.mergeFromBelow (.rects (p.length - 1)) (s.region.rect p.length)
        (if p.length > 1 then some (s.region.rect (p.length - 2)) else none)
        (if s.numAppend > 0 then some (r.rect s.srcRect) else none) with
    | none => exact ⟨_, _, _, hself⟩
    | some d =>
      obtain ⟨p', z, hd, hlength, hnew⟩ :=
        mergeLast_holds hholds hsame hp (head_of_rest hrest hnum) hmerge
      use p', z, m
      constructor
      · exact hd
      · change s.destRect - 1 = p'.length + 1
        rw [hdest, Nat.add_sub_cancel, hlength]
      · exact ⟨slack, hrest⟩
      · exact hnum
      · exact hnew

theorem tryMergeAppend_appends (h : d.Holds (p ++ [a]) e (points QRect.points l₀))
    (hr : r.Holds (b₀ :: b₁ :: q) b s) (hsame : SameRegion l₀ (p ++ a :: b₀ :: b₁ :: q)) :
  ∃ p' x m, Appends r e l₀ (tryMergeAppend d r) p' x m
  := by
  have hnum : d.numRects = p.length + 1 := by
    rw [h.numRects, List.length_append, List.length_singleton]
  have hnumRects : r.numRects = q.length + 2 := hr.numRects
  obtain ⟨slack, hrects⟩ := hr.rects
  have hb₀ : r.rect 0 = b₀ := hr.rect_eq (p := [])
  have hb₁ : r.rect 1 = b₁ := hr.rect_eq (p := [b₀])
  have hnext : (if d.numRects > 1 then some (d.rect (p.length - 1)) else none) = p.getLast? := by
    rw [← h.before_eq, hnum]
    apply if_congr
    · omega
    · rfl
    · rfl
  have hrest : (if q.length + 1 > 1 then some (r.rect 2) else none) = q.head? := by
    have hdrop : r.rects.drop 2 = q ++ slack := by
      rw [hrects]
      rfl
    rw [← head_of_rest hdrop rfl]
    apply if_congr
    · omega
    · rfl
    · rfl
  rw [tryMergeAppend]
  dsimp only
  rw [hnum, Nat.add_sub_cancel, ← hnum, hnext, hb₀, hb₁, hnumRects,
    show q.length + 2 - 1 = q.length + 1 from rfl, hrest]
  cases hright : d.mergeFromRight (.rects p.length) b₀ with
  | none =>
    dsimp only
    cases hbelow : d.mergeFromBelow (.rects p.length) b₀ p.getLast? (some b₁) with
    | none =>
      use p, a, b₀ :: b₁ :: q
      exact ⟨h, hnum, ⟨slack, hrects⟩, rfl, hsame⟩
    | some d₁ =>
      obtain ⟨y, hd₁, hnew⟩ := mergeFromBelow_holds h hsame rfl rfl hbelow
      use p, y, b₁ :: q
      exact ⟨hd₁, hnum, ⟨slack, by rw [hrects]; rfl⟩, rfl, hnew⟩
  | some d₁ =>
    dsimp only
    obtain ⟨y, hd₁, hnew⟩ := mergeFromRight_holds h hsame hright
    cases hbelow : d₁.mergeFromBelow (.rects p.length) b₁ p.getLast? q.head? with
    | none =>
      apply mergeLastBand_appends (x := y) (m := b₁ :: q)
      exact ⟨hd₁, hnum, ⟨slack, by rw [hrects]; rfl⟩, rfl, hnew⟩
    | some d₂ =>
      obtain ⟨z, hd₂, hnew⟩ := mergeFromBelow_holds hd₁ hnew rfl rfl hbelow
      apply mergeLastBand_appends (x := z) (m := q)
      exact ⟨hd₂, hnum, ⟨slack, by rw [hrects]; rfl⟩, rfl, hnew⟩

/-! ### Copying -/

theorem enlarge_eq_append (rects : List QRect) (size : ℕ) :
  ∃ t, enlarge rects size = rects ++ t ∧ size ≤ (enlarge rects size).length
  := by
  rw [enlarge]
  split_ifs with hsize
  · use List.replicate (size - rects.length) .null, rfl
    rw [List.length_append, List.length_replicate]
    omega
  · use [], (List.append_nil rects).symm
    apply Nat.le_of_not_lt hsize

/-- The rectangles behind a list are overwritten. -/
theorem copy_append {slack block : List QRect} :
  copy (l ++ slack) l.length block = l ++ block ++ slack.drop block.length
  := by
  rw [copy, List.take_left, List.drop_append, List.drop_eq_nil_of_le (Nat.le_add_right _ _),
    List.nil_append, Nat.add_sub_cancel_left]

theorem copyAppend_holds {s : Appending} (h : Appends r e l₀ s p x m) :
  (copyAppend s r).Holds (p ++ x :: m) e (points QRect.points l₀)
  := by
  obtain ⟨hholds, hdest, ⟨slack, hrest⟩, hnum, -⟩ := h
  obtain ⟨hnumRects, ⟨t, hrects⟩, hextents, hinner⟩ := hholds
  have hlength : s.destRect = (p ++ [x]).length := by
    rw [hdest, List.length_append, List.length_singleton]
  have hlist : p ++ x :: m = (p ++ [x]) ++ m := by
    rw [List.append_assoc, List.singleton_append]
  rw [copyAppend, hlist]
  split_ifs with hpos
  · dsimp only
    rw [hlength, ← hnumRects, ite_self]
    constructor
    · change s.region.numRects + s.numAppend = _
      rw [hnumRects, hnum]
      apply List.length_append.symm
    · obtain ⟨t', henlarge, -⟩ :=
        enlarge_eq_append s.region.rects (s.region.numRects + s.numAppend)
      use (t ++ t').drop m.length
      change copy _ _ _ = _
      rw [henlarge, hrest, hnum, List.take_left, hrects, hnumRects, List.append_assoc,
        copy_append]
    · exact hextents
    · exact hinner
  · rw [List.length_eq_zero_iff.mp (by omega : m.length = 0), List.append_nil]
    exact ⟨hnumRects, ⟨t, hrects⟩, hextents, hinner⟩

/-! ### Appending -/

/-- The condition of `canAppend` for the last rectangle and the first one. -/
theorem Valid.before_of_canAppendRect (h : d.Valid) (hrects : d.rectangles = p ++ [a])
    (hcan : d.canAppendRect b) :
  a.Before b
  := by
  rw [canAppendRect, h.last_eq hrects] at hcan
  split_ifs at hcan with hbelow
  · exact Or.inr hbelow
  · rw [Bool.and_eq_true, Bool.and_eq_true, decide_eq_true_iff, decide_eq_true_iff,
      decide_eq_true_iff, height, height] at hcan
    exact Or.inl (by omega)

theorem Valid.banded_append (h : d.Valid) (hr : r.Valid) (hcan : d.canAppend r) :
  Banded (d.rectangles ++ r.rectangles)
  := by
  obtain ⟨p, a, hrects⟩ := h.exists_concat
  obtain ⟨b, q, hrects'⟩ := hr.exists_cons
  rw [canAppend, first_eq hrects'] at hcan
  have hbanded := h.banded
  have hbanded' := hr.banded
  rw [hrects] at hbanded ⊢
  rw [hrects'] at hbanded' ⊢
  apply Banded.append_of_before hbanded hbanded' (h.before_of_canAppendRect hrects hcan)

theorem append_of_many (h : d.Valid) (hr : r.Valid) (hmany : r.numRects ≠ 1)
    (hcan : d.canAppend r) :
  Unites d r (d.append r)
  := by
  have hbanded := h.banded_append hr hcan
  have hpoints : points QRect.points (d.rectangles ++ r.rectangles)
      = points QRect.points d.rectangles ∪ points QRect.points r.rectangles := points_append
  obtain ⟨p, a, hrects⟩ := h.exists_concat
  obtain ⟨b₀, b₁, q, hrects'⟩ := hr.exists_cons_cons hmany
  have hd := h.vectorize_holds (hpoints ▸ Set.subset_union_left)
  have hr' := hr.holds hmany (hpoints ▸ Set.subset_union_right)
  have hlist : p ++ a :: b₀ :: b₁ :: q = d.rectangles ++ r.rectangles := by
    rw [hrects, hrects', List.append_assoc, List.singleton_append]
  have hsame : SameRegion (d.rectangles ++ r.rectangles) (p ++ a :: b₀ :: b₁ :: q) := by
    rw [hlist]
    exact ⟨hbanded, rfl⟩
  generalize d.rectangles ++ r.rectangles = l₀ at *
  rw [hrects] at hd
  rw [hrects'] at hr'
  obtain ⟨p', x, m, happends⟩ := tryMergeAppend_appends hd hr' hsame
  have hinner : r.innerRect.points ⊆ points QRect.points l₀ :=
    hr.inner.trans (hpoints ▸ Set.subset_union_right)
  rw [append, if_neg hmany]
  apply (updateBounds_holds (copyAppend_holds happends) hinner).unites h hr hpoints
  · apply happends.same.points
  · apply happends.same.banded
  · apply List.append_ne_nil_of_right_ne_nil
    apply List.cons_ne_nil

/-! ### Appending a rectangle -/

/-- A rectangle is put behind the others. -/
theorem Holds.push (h : d.Holds l e s) (hb : b.points ⊆ s) {u : QRegionPrivate}
    (hu : u = { d with numRects := d.numRects + 1 }.updateInnerRect b) :
  { u with rects := (enlarge u.rects u.numRects).set (u.numRects - 1) b }.Holds (l ++ [b]) e s
  := by
  obtain ⟨hnum, hlist, hextents⟩ :=
    { d with numRects := d.numRects + 1 }.updateInnerRect_fields b
  have hinner := updateInnerRect_inner (d := { d with numRects := d.numRects + 1 }) h.inner hb
  obtain ⟨hnumRects, ⟨slack, hrects⟩, he, -⟩ := h
  rw [← hu] at *
  constructor
  · rw [hnum, List.length_append, List.length_singleton, hnumRects]
  · obtain ⟨t, henlarge, hsize⟩ := enlarge_eq_append u.rects u.numRects
    rw [henlarge, hlist, hrects, hnum, hnumRects, List.append_assoc, List.length_append]
      at hsize
    obtain ⟨c, rest, hrest⟩ := List.exists_cons_of_length_pos (Nat.lt_of_add_lt_add_left hsize)
    use rest
    change (enlarge u.rects u.numRects).set (u.numRects - 1) b = _
    rw [henlarge, hlist, hrects, hnum, hnumRects, List.append_assoc, hrest,
      Nat.add_sub_cancel]
    simp
  · rw [hextents, he]
  · exact hinner

/-- A rectangle that cannot be merged. -/
theorem push_unites (h : d.Valid) (hr : r.Valid) (hone : r.numRects = 1)
    (hcan : d.canAppend r) {u : QRegionPrivate}
    (hu : u
      = { d.vectorize with numRects := d.vectorize.numRects + 1 }.updateInnerRect r.extents) :
  Unites d r { u with
    rects := (enlarge u.rects u.numRects).set (u.numRects - 1) r.extents
    extents := u.extents.united r.extents }
  := by
  have hpoints : points QRect.points (d.rectangles ++ [r.extents])
      = points QRect.points d.rectangles ∪ points QRect.points r.rectangles := by
    rw [rectangles_of_one hone, points_append]
  have hbanded := h.banded_append hr hcan
  rw [rectangles_of_one hone] at hbanded
  have hb : r.extents.points ⊆ points QRect.points (d.rectangles ++ [r.extents]) :=
    points_subset ⟨hbanded, rfl⟩ (List.mem_append_right _ List.mem_cons_self)
  have hd := (h.vectorize_holds (hpoints ▸ Set.subset_union_left)).push hb hu
  have hextents : u.extents = d.extents := hd.extents
  rw [hextents]
  apply hd.withExtents.unites h hr hpoints rfl hbanded
  simp

theorem append_one_of_one (h : d.Valid) (hr : r.Valid) (hd : d.numRects = 1)
    (hone : r.numRects = 1) (hcan : d.canAppend r) :
  Unites d r (d.append r)
  := by
  have hbanded := h.banded_append hr hcan
  have hpoints : points QRect.points [d.extents, r.extents]
      = points QRect.points d.rectangles ∪ points QRect.points r.rectangles := by
    rw [rectangles_of_one hd, rectangles_of_one hone, ← points_append]
    rfl
  rw [rectangles_of_one hd, rectangles_of_one hone] at hbanded
  rw [append, if_pos hone, appendRect, if_pos hd, mergeFromRight, read]
  by_cases hright : canMergeFromRight d.extents r.extents
  · obtain ⟨hnum, hunites⟩ := h.extents_unites hr hd hone
      (merge_right (p := []) (q := []) hbanded hright) hpoints rfl
    rw [if_pos hright]
    dsimp only
    rw [hnum, if_neg (lt_irrefl 1)]
    exact hunites
  · rw [if_neg hright]
    dsimp only
    rw [hd, if_neg (lt_irrefl 1), mergeFromBelow, read]
    by_cases hbelow : canMergeFromBelow d.extents r.extents none none
    · obtain ⟨-, hunites⟩ := h.extents_unites hr hd hone
        (merge_below (p := []) (q := []) hbanded hbelow) hpoints rfl
      rw [if_pos hbelow]
      exact hunites
    · rw [if_neg hbelow]
      apply push_unites h hr hone hcan rfl

theorem append_one_of_many (h : d.Valid) (hr : r.Valid) (hd : d.numRects ≠ 1)
    (hone : r.numRects = 1) (hcan : d.canAppend r) :
  Unites d r (d.append r)
  := by
  have hbanded := h.banded_append hr hcan
  have hpoints : points QRect.points (d.rectangles ++ [r.extents])
      = points QRect.points d.rectangles ∪ points QRect.points r.rectangles := by
    rw [rectangles_of_one hone, points_append]
  rw [rectangles_of_one hone] at hbanded
  obtain ⟨p, a, hrects⟩ := h.exists_concat
  have hholds := h.holds hd (hpoints ▸ Set.subset_union_left)
  have hsame : SameRegion (d.rectangles ++ [r.extents]) (p ++ a :: [r.extents]) := by
    rw [hrects, List.append_assoc] at hbanded ⊢
    exact ⟨hbanded, rfl⟩
  have hlength : d.numRects = p.length + 1 := by
    rw [hholds.numRects, hrects, List.length_append, List.length_singleton]
  have hp : p ≠ [] := by
    rintro rfl
    exact hd hlength
  have hpos := List.length_pos_iff.mpr hp
  have hpush := push_unites h hr hone hcan rfl
  rw [append, if_pos hone, appendRect, if_neg hd]
  generalize d.rectangles ++ [r.extents] = l₀ at *
  rw [hrects] at hholds
  have hfinal {u : QRegionPrivate} {p' : List QRect} {x : QRect}
      (hu : u.Holds (p' ++ [x]) d.extents (points QRect.points l₀))
      (hnew : SameRegion l₀ (p' ++ [x])) :
      Unites d r { u with extents := u.extents.united r.extents } := by
    rw [hu.extents]
    apply hu.withExtents.unites h hr hpoints hnew.points hnew.banded
    simp
  have hnext : (if d.numRects > 1 then some (d.rect (d.numRects - 2)) else none)
      = p.getLast? := by
    rw [← hholds.before_eq, hlength]
    apply if_congr
    · omega
    · rfl
    · rfl
  rw [hnext, hlength, Nat.add_sub_cancel]
  cases hright : d.mergeFromRight (.rects p.length) r.extents with
  | none =>
    dsimp only
    cases hbelow : d.mergeFromBelow (.rects p.length) r.extents p.getLast? none with
    | none => exact hpush
    | some d₁ =>
      obtain ⟨y, hd₁, hnew⟩ := mergeFromBelow_holds hholds hsame rfl rfl hbelow
      apply hfinal hd₁ hnew
  | some d₁ =>
    dsimp only
    obtain ⟨y, hd₁, hnew⟩ := mergeFromRight_holds hholds hsame hright
    have hnum : d₁.numRects = p.length + 1 := by
      rw [hd₁.numRects, List.length_append, List.length_singleton]
    have hnext : (if d₁.numRects > 2 then some (d₁.rect (d₁.numRects - 3)) else none)
        = if p.length > 1 then some (d₁.rect (p.length - 2)) else none := by
      rw [hnum]
      apply if_congr
      · omega
      · rfl
      · rfl
    rw [hnext, hnum, if_pos (Nat.succ_lt_succ hpos), read]
    cases hlast : d₁.mergeFromBelow (.rects (p.length + 1 - 2)) (d₁.rect p.length)
        (if p.length > 1 then some (d₁.rect (p.length - 2)) else none) none with
    | none => exact hfinal hd₁ hnew
    | some d₂ =>
      obtain ⟨p', z, hd₂, -, hnew⟩ :=
        mergeLast_holds hd₁ hnew hp rfl hlast
      apply hfinal hd₂ hnew

/-- `append` unites a region with one that lies behind it. -/
theorem append_unites (h : d.Valid) (hr : r.Valid) (hcan : d.canAppend r) :
  Unites d r (d.append r)
  := by
  by_cases hone : r.numRects = 1
  · by_cases hd : d.numRects = 1
    · apply append_one_of_one h hr hd hone hcan
    · apply append_one_of_many h hr hd hone hcan
  · apply append_of_many h hr hone hcan

end QRegionPrivate
