import BobUI.Gui.Painting.RegionAppend

/-!
# Prepending a region

`prepend` of a region that lies in front of another one.  If the first rectangle has been merged
with the band below it, the rectangles move to the left by one place; they move only when there are
rectangles to prepend.
-/

open Pieces QRect

namespace QRegionPrivate

variable {d d' r : QRegionPrivate} {l l₀ p q m : List QRect} {a b b₀ b₁ e x : QRect}
  {s : Set (ℤ × ℤ)}

theorem Holds.mergeFromLeft_isSome (h : d.Holds (p ++ x :: q) e s) :
  (d.mergeFromLeft (.rects p.length) b).isSome = canMergeFromLeft x b
  := by
  rw [mergeFromLeft, read, h.rect_eq]
  cases canMergeFromLeft x b
  · rfl
  · rfl

theorem Holds.mergeFromAbove_isSome {t u : Option QRect} (h : d.Holds (p ++ x :: q) e s) :
  (d.mergeFromAbove (.rects p.length) b u t).isSome = canMergeFromBelow b x t u
  := by
  rw [mergeFromAbove, read, h.rect_eq]
  cases canMergeFromBelow b x t u
  · rfl
  · rfl

/-- The rectangles that `prepend` has to copy, and those that it has to skip: they stand in front
of the rectangles that are left, and not in bands. -/
structure Prepends (r : QRegionPrivate) (e : QRect) (l₀ : List QRect) (s : Prepending)
    (dead : List QRect) (x : QRect) (q m : List QRect) : Prop where
  numRects : s.region.numRects = q.length + 1
  rects : ∃ slack, s.region.rects = dead ++ (x :: q ++ slack)
  extents : s.region.extents = e
  inner : s.region.innerRect.points ⊆ points QRect.points l₀
  numSkip : s.numSkip = dead.length
  atMostOne : dead.length ≤ 1
  unbanded : ∀ c ∈ dead, ¬c.Before x
  rest : ∃ slack, r.rects = m ++ slack
  numPrepend : s.numPrepend = m.length
  same : SameRegion l₀ (m ++ x :: q)

theorem Prepends.of_holds {s : Prepending}
    (h : s.region.Holds (x :: q) e (points QRect.points l₀)) (hsame : SameRegion l₀ (m ++ x :: q))
    (hskip : s.numSkip = 0) (hrest : ∃ slack, r.rects = m ++ slack)
    (hnum : s.numPrepend = m.length) :
  Prepends r e l₀ s [] x q m
  := by
  constructor
  · exact h.numRects
  · exact h.rects
  · exact h.extents
  · exact h.inner
  · exact hskip
  · apply Nat.zero_le
  · intro c hc
    cases hc
  · exact hrest
  · exact hnum
  · exact hsame

/-- Rectangles that have been merged are not in bands. -/
theorem not_before_of_merge {t u : Option QRect} (hx : x.Nonempty)
    (h : canMergeFromBelow x a t u) :
  ¬x.Before { a with top := x.top }
  := by
  rw [canMergeFromBelow] at h
  split_ifs at h
  rw [Bool.and_eq_true, Bool.and_eq_true, decide_eq_true_iff, decide_eq_true_iff,
    decide_eq_true_iff] at h
  obtain ⟨hwidth, hheight⟩ := hx
  rw [Before]
  dsimp only
  omega

theorem last_of_rest {n : ℕ} {rects slack : List QRect} (h : rects = m ++ slack)
    (hlength : n = m.length) :
  (if n > 0 then some (rects.getD (n - 1) .null) else none) = m.getLast?
  := by
  rw [h, hlength]
  rcases List.eq_nil_or_concat m with rfl | ⟨m, c, rfl⟩
  · rfl
  · rw [List.concat_eq_append, List.length_append, List.length_singleton,
      if_pos (Nat.succ_pos m.length), List.getLast?_concat, Nat.add_sub_cancel]
    simp

/-- Whether the first rectangle is merged with the band below it. -/
def canMergeFirstBand (x : QRect) (q m : List QRect) : Bool :=
  q.head?.any fun a => canMergeFromBelow x a m.getLast? q.tail.head?

theorem mergeFirstBand_cons {s : Prepending}
    (h : s.region.Holds (x :: a :: q) e (points QRect.points l₀))
    (hrest : ∃ slack, r.rects = m ++ slack) (hnum : s.numPrepend = m.length) :
  mergeFirstBand s r =
    match s.region.mergeFromAbove (.rects 1) x q.head? m.getLast? with
    | some d => ⟨{ d with numRects := d.numRects - 1 }, s.numPrepend, s.numSkip + 1⟩
    | none => s
  := by
  obtain ⟨slack, hrest⟩ := hrest
  have hx : s.region.rect 0 = x := h.rect_eq (p := [])
  have hnext : (if s.region.numRects > 2 then some (s.region.rect 2) else none) = q.head? :=
    h.behind_eq (p := [x])
  have hlast : (if s.numPrepend > 0 then some (r.rect (s.numPrepend - 1)) else none)
      = m.getLast? := last_of_rest hrest hnum
  have htwo : s.region.numRects > 1 := by
    rw [h.numRects, List.length_cons, List.length_cons]
    omega
  cases hmerge : s.region.mergeFromAbove (.rects 1) x q.head? m.getLast? with
  | none => simp only [mergeFirstBand, if_pos htwo, hx, hnext, hlast, hmerge]
  | some d => simp only [mergeFirstBand, if_pos htwo, hx, hnext, hlast, hmerge]

theorem mergeFirstBand_prepends {s : Prepending}
    (h : s.region.Holds (x :: q) e (points QRect.points l₀)) (hsame : SameRegion l₀ (m ++ x :: q))
    (hskip : s.numSkip = 0) (hrest : ∃ slack, r.rects = m ++ slack)
    (hnum : s.numPrepend = m.length) :
  if canMergeFirstBand x q m then
    ∃ x', Prepends r e l₀ (mergeFirstBand s r) [x] x' q.tail m
  else Prepends r e l₀ (mergeFirstBand s r) [] x q m
  := by
  have hself := Prepends.of_holds h hsame hskip hrest hnum
  cases q with
  | nil =>
    rw [mergeFirstBand, if_neg (c := s.region.numRects > 1)]
    · exact hself
    · rw [h.numRects]
      apply lt_irrefl
  | cons a q =>
    have hsome :=
      Holds.mergeFromAbove_isSome (p := [x]) (b := x) (t := m.getLast?) (u := q.head?) h
    rw [List.length_singleton] at hsome
    rw [mergeFirstBand_cons h hrest hnum]
    change if canMergeFromBelow x a m.getLast? q.head? then _ else _
    rw [← hsome]
    cases hmerge : s.region.mergeFromAbove (.rects 1) x q.head? m.getLast? with
    | none => exact hself
    | some d =>
      rw [if_pos Option.isSome_some]
      obtain ⟨hd, hnew⟩ := mergeFromAbove_holds (p := [x]) h hsame rfl rfl hmerge
      obtain ⟨slack, hrects⟩ := hd.rects
      rw [hmerge] at hsome
      have hx := hsame.banded.nonempty x (by simp)
      use { a with top := x.top }
      constructor
      · change d.numRects - 1 = q.length + 1
        rw [hd.numRects]
        rfl
      · use slack
        exact hrects
      · exact hd.extents
      · exact hd.inner
      · change s.numSkip + 1 = 1
        rw [hskip]
      · apply le_refl
      · intro c hc
        rw [List.mem_singleton.mp hc]
        apply not_before_of_merge hx hsome.symm
      · exact hrest
      · exact hnum
      · exact hnew

/-- The merges after which no rectangle is left to prepend, and one to skip. -/
def Vanishes (a : QRect) (q m : List QRect) (b₀ b₁ : QRect) : Prop :=
  m = [] ∧ q.tail ≠ [] ∧ canMergeFromLeft a b₁
    ∧ canMergeFromBelow b₀ { a with left := b₁.left } m.getLast? q.head?
    ∧ canMergeFirstBand { a with left := b₁.left, top := b₀.top } q m

theorem tryMergePrepend_prepends (h : d.Holds (a :: q) e (points QRect.points l₀))
    (hr : r.Holds (m ++ [b₀, b₁]) b s) (hsame : SameRegion l₀ (m ++ b₀ :: b₁ :: a :: q)) :
  ∃ dead x q' m', Prepends r e l₀ (tryMergePrepend d r) dead x q' m'
    ∧ (m' = [] ∧ dead ≠ [] ∧ q' ≠ [] ↔ Vanishes a q m b₀ b₁)
  := by
  have hnum : d.numRects = q.length + 1 := h.numRects
  have hnumRects : r.numRects = m.length + 2 := by
    rw [hr.numRects, List.length_append]
    rfl
  obtain ⟨slack, hrects⟩ := hr.rects
  obtain ⟨slack', hrects'⟩ := h.rects
  have hnext : (if d.numRects > 1 then some (d.rect 1) else none) = q.head? :=
    h.behind_eq (p := [])
  have hb₀ : r.rect m.length = b₀ := hr.rect_eq
  have hb₁ : r.rect (m.length + 1) = b₁ := by
    have hr' : r.Holds ((m ++ [b₀]) ++ [b₁]) b s := by
      rw [List.append_assoc]
      exact hr
    have hrect := hr'.rect_eq
    rw [List.length_append] at hrect
    exact hrect
  have hlast : (if m.length + 1 > 1 then some (r.rect (m.length - 1)) else none) = m.getLast? := by
    rw [← hr.before_eq]
    apply if_congr
    · omega
    · rfl
    · rfl
  rw [tryMergePrepend]
  dsimp only
  rw [hnext, hnumRects, show m.length + 2 - 1 = m.length + 1 from rfl,
    show m.length + 2 - 2 = m.length from rfl, show m.length + 1 - 2 = m.length - 1 from rfl,
    Nat.add_sub_cancel, hb₁, hb₀, hlast, if_pos (c := m.length + 2 > 1) (by omega)]
  have hall : r.rects = m ++ b₀ :: b₁ :: slack := by
    rw [hrects, List.append_assoc]
    rfl
  have hmost : ∃ slack, r.rects = (m ++ [b₀]) ++ slack := by
    use b₁ :: slack
    rw [hall, List.append_assoc]
    rfl
  have hsplit : m ++ b₀ :: b₁ :: a :: q = (m ++ [b₀]) ++ b₁ :: a :: q := by
    rw [List.append_assoc]
    rfl
  have hlength : m.length + 1 = (m ++ [b₀]).length := by
    rw [List.length_append, List.length_singleton]
  have hleft := Holds.mergeFromLeft_isSome (p := []) (b := b₁) h
  rw [List.length_nil] at hleft
  rw [hsplit] at hsame
  cases hmerge : d.mergeFromLeft (.rects 0) b₁ with
  | none =>
    dsimp only
    rw [hmerge] at hleft
    have hstays : ¬Vanishes a q m b₀ b₁ := by
      rintro ⟨-, -, hcan, -⟩
      rw [← hleft] at hcan
      cases hcan
    cases habove : d.mergeFromAbove (.rects 0) b₁ q.head? (some b₀) with
    | none =>
      use [], a, q, m ++ [b₀, b₁]
      constructor
      · apply Prepends.of_holds h _ rfl ⟨slack, hrects⟩
          (hnumRects.symm.trans hr.numRects)
        rw [← hsplit] at hsame
        rw [List.append_assoc]
        exact hsame
      · simp [hstays]
    | some d₁ =>
      obtain ⟨hd₁, hnew⟩ :=
        mergeFromAbove_holds (p := []) h hsame List.getLast?_concat.symm rfl habove
      use [], { a with top := b₁.top }, q, m ++ [b₀]
      constructor
      · apply Prepends.of_holds hd₁ hnew rfl hmost hlength
      · simp [hstays]
  | some d₁ =>
    dsimp only
    rw [hmerge] at hleft
    obtain ⟨hd₁, hnew⟩ := mergeFromLeft_holds (p := []) h hsame hmerge
    have hsome :=
      Holds.mergeFromAbove_isSome (p := []) (b := b₀) (t := m.getLast?) (u := q.head?) hd₁
    rw [List.length_nil] at hsome
    cases habove : d₁.mergeFromAbove (.rects 0) b₀ q.head? m.getLast? with
    | none =>
      rw [habove] at hsome
      have hstays : ¬Vanishes a q m b₀ b₁ := by
        rintro ⟨-, -, -, hcan, -⟩
        rw [← hsome] at hcan
        cases hcan
      have hband := mergeFirstBand_prepends (s := ⟨d₁, m.length + 1, 0⟩) hd₁ hnew rfl hmost
        hlength
      split_ifs at hband with hcan
      · obtain ⟨x, hprepends⟩ := hband
        refine ⟨_, _, _, _, hprepends, ?_⟩
        simp [hstays]
      · refine ⟨_, _, _, _, hband, ?_⟩
        simp [hstays]
    | some d₂ =>
      rw [habove] at hsome
      rw [List.append_assoc] at hnew
      obtain ⟨hd₂, hnew⟩ := mergeFromAbove_holds (p := []) hd₁ hnew rfl rfl habove
      have hband := mergeFirstBand_prepends (s := ⟨d₂, m.length, 0⟩) hd₂ hnew rfl
        ⟨_, hall⟩ rfl
      split_ifs at hband with hcan
      · obtain ⟨x, hprepends⟩ := hband
        refine ⟨_, _, _, _, hprepends, ?_⟩
        simp [Vanishes, ← hleft, ← hsome, hcan]
      · refine ⟨_, _, _, _, hband, ?_⟩
        simp [Vanishes, hcan]

/-! ### Copying -/

/-- Rectangles are moved behind a block that is copied to the front. -/
theorem copy_copy {rects slack src : List QRect} (hrects : rects = p ++ (l ++ slack))
    (hsrc : ∃ t, src = m ++ t) (hsize : l.length + m.length ≤ rects.length) :
  ∃ t, copy (copy rects m.length ((rects.drop p.length).take l.length)) 0 (src.take m.length)
    = m ++ l ++ t
  := by
  obtain ⟨t, rfl⟩ := hsrc
  have htake : (rects.take m.length).length = m.length := by
    rw [List.length_take]
    omega
  use rects.drop (m.length + l.length)
  rw [hrects, List.drop_left, List.take_left, ← hrects, List.take_left, copy, copy, Nat.zero_add,
    List.take_zero, List.nil_append, List.append_assoc (rects.take m.length),
    List.drop_left' htake, List.append_assoc]

theorem copyPrepend_holds {s : Prepending} {dead : List QRect} (h : Prepends r e l₀ s dead x q m)
    (hmoves : m ≠ [] ∨ dead = []) :
  (copyPrepend s r).Holds (m ++ x :: q) e (points QRect.points l₀)
  := by
  obtain ⟨hnumRects, ⟨slack, hrects⟩, hextents, hinner, hskip, -, -, ⟨slack', hrest⟩, hnum,
    -⟩ := h
  rw [copyPrepend]
  by_cases hm : m = []
  · rw [if_neg (by rw [hnum, hm]; apply lt_irrefl)]
    have hdead := hmoves.resolve_left (absurd hm)
    rw [hm]
    rw [hdead] at hrects
    exact ⟨hnumRects, ⟨slack, hrects⟩, hextents, hinner⟩
  · rw [if_pos (by rw [hnum]; apply List.length_pos_iff.mpr hm)]
    dsimp only
    constructor
    · change s.region.numRects + s.numPrepend = _
      rw [hnumRects, hnum, List.length_append, List.length_cons]
      apply Nat.add_comm
    · obtain ⟨t, henlarge, hsize⟩ :=
        enlarge_eq_append s.region.rects (s.region.numRects + s.numPrepend)
      rw [henlarge, hrects, List.append_assoc, List.append_assoc] at hsize
      change ∃ slack, copy (copy (enlarge _ _) s.numPrepend _) 0 _ = _
      rw [henlarge, hrects, hnum, hskip, hnumRects, List.append_assoc, List.append_assoc]
      apply copy_copy (l := x :: q) rfl ⟨slack', hrest⟩
      rw [hnumRects, hnum] at hsize
      exact hsize
    · exact hextents
    · exact hinner

/-! ### Prepending -/

theorem Valid.before_of_canPrependRect (hrects : d.rectangles = a :: q)
    (hcan : d.canPrependRect b) :
  b.Before a
  := by
  rw [canPrependRect, first_eq hrects] at hcan
  split_ifs at hcan with habove
  · exact Or.inr habove
  · rw [Bool.and_eq_true, Bool.and_eq_true, decide_eq_true_iff, decide_eq_true_iff,
      decide_eq_true_iff, height, height] at hcan
    exact Or.inl (by omega)

theorem Valid.banded_prepend (h : d.Valid) (hr : r.Valid) (hcan : d.canPrepend r) :
  Banded (r.rectangles ++ d.rectangles)
  := by
  obtain ⟨a, q, hrects⟩ := h.exists_cons
  obtain ⟨p, b, hrects'⟩ := hr.exists_concat
  rw [canPrepend, hr.last_eq hrects'] at hcan
  have hbanded := h.banded
  have hbanded' := hr.banded
  rw [hrects] at hbanded ⊢
  rw [hrects'] at hbanded' ⊢
  apply Banded.append_of_before hbanded' hbanded (Valid.before_of_canPrependRect hrects hcan)

/-- The seam where `prepend` leaves a rectangle in place that it should skip: both rectangles of the
other region are merged into the first one, which is merged with the second one, and there are
more. -/
def seamVanishes (d r : QRegionPrivate) : Bool :=
  match d.rectangles, r.rectangles with
  | a₀ :: a₁ :: a₂ :: _, [b₀, b₁] =>
    canMergeFromLeft a₀ b₁ && canMergeFromBelow b₀ { a₀ with left := b₁.left } none (some a₁)
      && canMergeFromBelow { a₀ with left := b₁.left, top := b₀.top } a₁ none (some a₂)
  | _, _ => false

theorem seamVanishes_iff (hrects : d.rectangles = a :: q)
    (hrects' : r.rectangles = m ++ [b₀, b₁]) :
  seamVanishes d r ↔ Vanishes a q m b₀ b₁
  := by
  rw [seamVanishes, hrects, hrects', Vanishes]
  cases m with
  | nil =>
    rcases q with _ | ⟨a₁, _ | ⟨a₂, q⟩⟩
    · simp
    · simp
    · simp [canMergeFirstBand, and_assoc]
  | cons c m =>
    have hmany : ∃ b b' q', c :: m ++ [b₀, b₁] = c :: b :: b' :: q' := by
      rcases m with _ | ⟨b, _ | ⟨b', m⟩⟩
      · exact ⟨_, _, _, rfl⟩
      · exact ⟨_, _, _, rfl⟩
      · exact ⟨_, _, _, rfl⟩
    obtain ⟨b, b', q', hmany⟩ := hmany
    rw [hmany]
    simp

/-- The rectangle to skip stays in front. -/
theorem Prepends.not_banded {s : Prepending} {dead : List QRect}
    (h : Prepends r e l₀ s dead x q []) (hdead : dead ≠ []) (hq : q ≠ []) :
  ¬Banded (updateBounds (copyPrepend s r) r).rectangles
  := by
  obtain ⟨hnumRects, ⟨slack, hrects⟩, -, -, -, hone, hunbanded, -, hnum, -⟩ := h
  obtain ⟨c, rfl⟩ := List.length_eq_one_iff.mp
    (le_antisymm hone (List.length_pos_iff.mpr hdead))
  obtain ⟨a, q, rfl⟩ := List.exists_cons_of_ne_nil hq
  obtain ⟨hnum', hrects', -⟩ := updateBounds_fields (copyPrepend s r) r
  have hcopy : copyPrepend s r = s.region := by
    rw [copyPrepend, if_neg]
    rw [hnum]
    apply lt_irrefl
  rw [hcopy] at hnum' hrects' ⊢
  rw [rectangles, hnum', hrects', hnumRects, hrects, if_neg (by rw [List.length_cons]; omega)]
  intro hbanded
  have hbefore := hbanded.before
  rw [List.singleton_append, List.cons_append, List.length_cons, List.take_succ_cons,
    List.take_succ_cons, List.pairwise_cons] at hbefore
  apply hunbanded c List.mem_cons_self
  apply hbefore.1 x List.mem_cons_self

/-- All rectangles have been merged into one. -/
theorem Prepends.unites_of_nil {s : Prepending} {dead : List QRect} (hd : d.Valid) (hr : r.Valid)
    (h : Prepends r d.extents l₀ s dead x [] [])
    (hl₀ : points QRect.points l₀
      = points QRect.points d.rectangles ∪ points QRect.points r.rectangles) :
  Unites d r (updateBounds (copyPrepend s r) r)
  := by
  obtain ⟨hnumRects, -, hextents, hinner, -, -, -, -, hnum, hsame⟩ := h
  have hx := hsame.banded.nonempty x List.mem_cons_self
  have hpoints := hsame.points
  rw [List.nil_append, points_singleton] at hpoints
  have hcopy : copyPrepend s r = s.region := by
    rw [copyPrepend, if_neg]
    rw [hnum]
    apply lt_irrefl
  obtain ⟨hnum', -, hextents'⟩ := updateBounds_fields s.region r
  rw [hcopy]
  apply unites_of_one (x := x) _ hx (hpoints.trans hl₀)
  · rw [hextents', hextents]
    apply (hd.bounds_union hr).unique
    rw [← hl₀, ← hpoints]
    apply bounds_points hx
  · rw [hpoints]
    apply updateBounds_inner hinner
    rw [hl₀]
    apply hr.inner.trans Set.subset_union_right
  · rw [hnum', hnumRects]
    rfl

theorem prepend_of_many (h : d.Valid) (hr : r.Valid) (hmany : r.numRects ≠ 1)
    (hcan : d.canPrepend r) :
  Unites d r (d.prepend r) ↔ ¬seamVanishes d r
  := by
  have hbanded := h.banded_prepend hr hcan
  have hpoints : points QRect.points (r.rectangles ++ d.rectangles)
      = points QRect.points d.rectangles ∪ points QRect.points r.rectangles := by
    rw [points_append, Set.union_comm]
  obtain ⟨a, q, hrects⟩ := h.exists_cons
  obtain ⟨m, b₀, b₁, hrects'⟩ := hr.exists_concat_concat hmany
  have hd := h.vectorize_holds (hpoints ▸ Set.subset_union_left)
  have hr' := hr.holds hmany (hpoints ▸ Set.subset_union_right)
  have hlist : m ++ b₀ :: b₁ :: a :: q = r.rectangles ++ d.rectangles := by
    rw [hrects, hrects', List.append_assoc]
    rfl
  have hsame : SameRegion (r.rectangles ++ d.rectangles) (m ++ b₀ :: b₁ :: a :: q) := by
    rw [hlist]
    exact ⟨hbanded, rfl⟩
  rw [seamVanishes_iff hrects hrects']
  generalize r.rectangles ++ d.rectangles = l₀ at *
  rw [hrects] at hd
  rw [hrects'] at hr'
  obtain ⟨dead, x, q', m', hprepends, hiff⟩ := tryMergePrepend_prepends hd hr' hsame
  have hinner : r.innerRect.points ⊆ points QRect.points l₀ :=
    hr.inner.trans (hpoints ▸ Set.subset_union_right)
  rw [prepend, if_neg hmany, ← hiff]
  by_cases hvanishes : m' = [] ∧ dead ≠ [] ∧ q' ≠ []
  · obtain ⟨rfl, hdead, hq⟩ := hvanishes
    constructor
    · intro hunites
      exact absurd hunites.valid.banded (hprepends.not_banded hdead hq)
    · intro hnot
      exact absurd ⟨rfl, hdead, hq⟩ hnot
  · apply iff_of_true _ hvanishes
    by_cases hmoves : m' ≠ [] ∨ dead = []
    · have hcopied := copyPrepend_holds hprepends hmoves
      apply (updateBounds_holds hcopied hinner).unites h hr hpoints
      · apply hprepends.same.points
      · apply hprepends.same.banded
      · apply List.append_ne_nil_of_right_ne_nil
        apply List.cons_ne_nil
    · push Not at hmoves hvanishes
      obtain ⟨rfl, hdead⟩ := hmoves
      have hq := hvanishes rfl hdead
      rw [hq] at hprepends
      apply hprepends.unites_of_nil h hr hpoints

/-! ### Prepending a rectangle -/

/-- The rectangles are moved to the left. -/
theorem Holds.shift (h : d.Holds (x :: l) e s) :
  { d with
    numRects := d.numRects - 1
    rects := copy d.rects 0 ((d.rects.drop 1).take (d.numRects - 1)) }.Holds l e s
  := by
  obtain ⟨hnumRects, ⟨slack, hrects⟩, hextents, hinner⟩ := h
  rw [List.length_cons] at hnumRects
  constructor
  · change d.numRects - 1 = l.length
    rw [hnumRects, Nat.add_sub_cancel]
  · use d.rects.drop l.length
    change copy d.rects 0 ((d.rects.drop 1).take (d.numRects - 1)) = _
    have hblock : (d.rects.drop 1).take (d.numRects - 1) = l := by
      rw [hrects, hnumRects, Nat.add_sub_cancel, List.cons_append, List.drop_one, List.tail_cons,
        List.take_left]
    rw [hblock, copy, List.take_zero, List.nil_append, Nat.zero_add]
  · exact hextents
  · exact hinner

/-- A rectangle that cannot be merged. -/
theorem pushFront_unites (h : d.Valid) (hr : r.Valid) (hone : r.numRects = 1)
    (hcan : d.canPrepend r) {u : QRegionPrivate}
    (hu : u
      = { d.vectorize with numRects := d.vectorize.numRects + 1 }.updateInnerRect r.extents) :
  Unites d r { u with
    rects := r.extents :: u.rects
    extents := u.extents.united r.extents }
  := by
  have hpoints : points QRect.points (r.extents :: d.rectangles)
      = points QRect.points d.rectangles ∪ points QRect.points r.rectangles := by
    rw [rectangles_of_one hone, points_cons, points_singleton, Set.union_comm]
  have hbanded := h.banded_prepend hr hcan
  rw [rectangles_of_one hone] at hbanded
  have hb : r.extents.points ⊆ points QRect.points (r.extents :: d.rectangles) :=
    points_subset ⟨hbanded, rfl⟩ List.mem_cons_self
  obtain ⟨hnumRects, ⟨slack, hrects⟩, hextents, hinner⟩ :=
    h.vectorize_holds (hpoints ▸ Set.subset_union_left)
  obtain ⟨hnum, hlist, hext⟩ :=
    { d.vectorize with numRects := d.vectorize.numRects + 1 }.updateInnerRect_fields r.extents
  have hinner' := updateInnerRect_inner
    (d := { d.vectorize with numRects := d.vectorize.numRects + 1 }) hinner hb
  rw [← hu] at *
  rw [hext, hextents]
  apply Holds.unites _ h hr hpoints rfl hbanded
  · apply List.cons_ne_nil
  · constructor
    · change u.numRects = d.rectangles.length + 1
      rw [hnum, hnumRects]
    · use slack
      change r.extents :: u.rects = _
      rw [hlist, hrects]
      rfl
    · rfl
    · exact hinner'

theorem prepend_one_of_one (h : d.Valid) (hr : r.Valid) (hd : d.numRects = 1)
    (hone : r.numRects = 1) (hcan : d.canPrepend r) :
  Unites d r (d.prepend r)
  := by
  have hbanded := h.banded_prepend hr hcan
  have hpoints : points QRect.points [r.extents, d.extents]
      = points QRect.points d.rectangles ∪ points QRect.points r.rectangles := by
    rw [rectangles_of_one hd, rectangles_of_one hone, Set.union_comm, ← points_append]
    rfl
  rw [rectangles_of_one hd, rectangles_of_one hone] at hbanded
  rw [prepend, if_pos hone, prependRect, if_pos hd, mergeFromLeft, read]
  by_cases hleft : canMergeFromLeft d.extents r.extents
  · have hsame := merge_right (p := []) (q := []) hbanded hleft
    rw [← canMergeFromRight_eq hleft] at hsame
    obtain ⟨hnum, hunites⟩ := h.extents_unites hr hd hone hsame hpoints rfl
    rw [if_pos hleft]
    dsimp only
    rw [hnum, if_neg (lt_irrefl 1)]
    exact hunites
  · rw [if_neg hleft]
    dsimp only
    rw [hd, if_neg (lt_irrefl 1), mergeFromAbove, read]
    by_cases habove : canMergeFromBelow r.extents d.extents none none
    · have hsame := merge_below (p := []) (q := []) hbanded habove
      rw [← canMergeFromBelow_eq habove] at hsame
      obtain ⟨-, hunites⟩ := h.extents_unites hr hd hone hsame hpoints rfl
      rw [if_pos habove]
      exact hunites
    · rw [if_neg habove]
      apply pushFront_unites h hr hone hcan rfl

theorem prepend_one_of_many (h : d.Valid) (hr : r.Valid) (hd : d.numRects ≠ 1)
    (hone : r.numRects = 1) (hcan : d.canPrepend r) :
  Unites d r (d.prepend r)
  := by
  have hbanded := h.banded_prepend hr hcan
  have hpoints : points QRect.points (r.extents :: d.rectangles)
      = points QRect.points d.rectangles ∪ points QRect.points r.rectangles := by
    rw [rectangles_of_one hone, points_cons, points_singleton, Set.union_comm]
  rw [rectangles_of_one hone] at hbanded
  obtain ⟨a, a₁, q, hrects⟩ := h.exists_cons_cons hd
  have hholds := h.holds hd (hpoints ▸ Set.subset_union_left)
  have hsame : SameRegion (r.extents :: d.rectangles) ([] ++ r.extents :: a :: a₁ :: q) := by
    rw [List.nil_append, ← hrects]
    exact ⟨hbanded, rfl⟩
  have hpush := pushFront_unites h hr hone hcan rfl
  rw [prepend, if_pos hone, prependRect, if_neg hd]
  generalize r.extents :: d.rectangles = l₀ at *
  rw [hrects] at hholds
  have hfinal {u : QRegionPrivate} {x : QRect} {l : List QRect}
      (hu : u.Holds (x :: l) d.extents (points QRect.points l₀)) (hnew : SameRegion l₀ (x :: l)) :
      Unites d r { u with extents := u.extents.united r.extents } := by
    rw [hu.extents]
    apply hu.withExtents.unites h hr hpoints hnew.points hnew.banded
    simp
  have hnext : (if d.numRects > 1 then some (d.rect 1) else none) = some a₁ :=
    hholds.behind_eq (p := [])
  rw [hnext]
  cases hleft : d.mergeFromLeft (.rects 0) r.extents with
  | none =>
    dsimp only
    cases habove : d.mergeFromAbove (.rects 0) r.extents (some a₁) none with
    | none => exact hpush
    | some d₁ =>
      obtain ⟨hd₁, hnew⟩ :=
        mergeFromAbove_holds (p := []) (m := []) hholds hsame rfl rfl habove
      apply hfinal hd₁ hnew
  | some d₁ =>
    dsimp only
    obtain ⟨hd₁, hnew⟩ := mergeFromLeft_holds (p := []) (m := []) hholds hsame hleft
    have htwo : d₁.numRects > 1 := by
      rw [hd₁.numRects]
      apply Nat.succ_lt_succ (Nat.succ_pos _)
    have hnext : (if d₁.numRects > 2 then some (d₁.rect 2) else none) = q.head? :=
      hd₁.behind_eq (p := [{ a with left := r.extents.left }])
    have hx : d₁.rect 0 = { a with left := r.extents.left } := hd₁.rect_eq (p := [])
    rw [if_pos htwo, hnext, read, hx]
    cases hfirst : d₁.mergeFromAbove (.rects 1) { a with left := r.extents.left } q.head?
        none with
    | none => exact hfinal hd₁ hnew
    | some d₂ =>
      obtain ⟨hd₂, hnew⟩ := mergeFromAbove_holds
        (p := [{ a with left := r.extents.left }]) (m := []) hd₁ hnew rfl rfl hfirst
      apply hfinal hd₂.shift hnew

/-- `prepend` unites a region with one that lies in front of it, if no rectangle has to be skipped
where none is prepended. -/
theorem prepend_unites_iff (h : d.Valid) (hr : r.Valid) (hcan : d.canPrepend r) :
  Unites d r (d.prepend r) ↔ ¬seamVanishes d r
  := by
  by_cases hone : r.numRects = 1
  · have hstays : ¬seamVanishes d r := by
      rw [seamVanishes, rectangles_of_one hone]
      simp
    apply iff_of_true _ hstays
    by_cases hd : d.numRects = 1
    · apply prepend_one_of_one h hr hd hone hcan
    · apply prepend_one_of_many h hr hd hone hcan
  · apply prepend_of_many h hr hone hcan

/-- `append` and `prepend` are the union of regions that follow each other, except at a seam where
`prepend` skips a rectangle and prepends none. -/
theorem append_prepend_unite_iff (h : d.Valid) (h_r : r.Valid) :
  ((d.canAppend r → Unites d r (d.append r)) ∧ (d.canPrepend r → Unites d r (d.prepend r)))
    ↔ ¬(d.canPrepend r ∧ seamVanishes d r)
  := by
  constructor
  · rintro ⟨-, h_prepend⟩ ⟨h_can, h_vanishes⟩
    exact (prepend_unites_iff h h_r h_can).mp (h_prepend h_can) h_vanishes
  · intro h_stays
    constructor
    · apply append_unites h h_r
    · intro h_can
      rw [prepend_unites_iff h h_r h_can]
      intro h_vanishes
      exact h_stays ⟨h_can, h_vanishes⟩

/-- A step and a part of the band above it, and a rectangle apart from them. -/
def steps : QRegionPrivate :=
  ⟨3, 200, [⟨10, 10, 19, 19⟩, ⟨0, 20, 19, 29⟩, ⟨0, 40, 5, 50⟩], ⟨0, 10, 19, 50⟩, ⟨0, 20, 19, 29⟩⟩

/-- What completes the band, and the band above it. -/
def corner : QRegionPrivate :=
  ⟨2, 200, [⟨0, 0, 19, 9⟩, ⟨0, 10, 9, 19⟩], ⟨0, 0, 19, 19⟩, ⟨0, 0, 19, 9⟩⟩

theorem steps_valid :
  steps.Valid
  := valid_of_banded (p := [⟨10, 10, 19, 19⟩, ⟨0, 20, 19, 29⟩]) (a := ⟨0, 40, 5, 50⟩) rfl
    (by decide) rfl rfl (by decide)

theorem corner_valid :
  corner.Valid
  := valid_of_banded (p := [⟨0, 0, 19, 9⟩]) (a := ⟨0, 10, 9, 19⟩) rfl (by decide) rfl rfl
    (by decide)

theorem append_prepend_unite_steps :
  (steps.Valid ∧ corner.Valid)
    ∧ (((steps.canAppend corner → Unites steps corner (steps.append corner))
        ∧ (steps.canPrepend corner → Unites steps corner (steps.prepend corner)))
      ↔ ¬(steps.canPrepend corner ∧ seamVanishes steps corner))
  := ⟨⟨steps_valid, corner_valid⟩, append_prepend_unite_iff steps_valid corner_valid⟩

/-- The rectangle apart is lost and the first one is listed twice; neither region contains the other
one, so `united` comes to `prepend`. -/
theorem prepend_steps_not_exact :
  (steps.Valid ∧ corner.Valid)
    ∧ (steps.contains corner = false ∧ corner.contains steps = false
      ∧ steps.canAppend corner = false ∧ steps.canPrepend corner = true)
    ∧ (steps.prepend corner).rectangles = [⟨0, 0, 19, 19⟩, ⟨0, 0, 19, 29⟩]
    ∧ ¬Unites steps corner (steps.prepend corner)
  := by
  have h_rectangles : (steps.prepend corner).rectangles = [⟨0, 0, 19, 19⟩, ⟨0, 0, 19, 29⟩] := by
    decide
  refine ⟨⟨steps_valid, corner_valid⟩, by decide, h_rectangles, ?_⟩
  intro h_unites
  have h_banded := h_unites.valid.banded
  rw [h_rectangles] at h_banded
  revert h_banded
  decide

end QRegionPrivate
