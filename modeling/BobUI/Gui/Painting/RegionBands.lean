import BobUI.Library.Pieces
import BobUI.Gui.Painting.Region
import Mathlib.Order.MinMax

/-!
# Banded lists of rectangles

A list of rectangles is banded if its bands follow each other from top to bottom and the rectangles
of a band from left to right.  Two rectangles that touch are merged without a change of the points
of the list: neighbours in a band, and neighbours that are alone in their bands.
-/

open Pieces

namespace QRect

/-- The points of a rectangle. -/
def points (r : QRect) : Set (ℤ × ℤ) :=
  {p | (r.left ≤ p.1 ∧ p.1 ≤ r.right) ∧ r.top ≤ p.2 ∧ p.2 ≤ r.bottom}

theorem mem_points {r : QRect} {x y : ℤ} :
  (x, y) ∈ r.points ↔ (r.left ≤ x ∧ x ≤ r.right) ∧ r.top ≤ y ∧ y ≤ r.bottom
  := Iff.rfl

def Nonempty (r : QRect) : Prop :=
  r.left ≤ r.right ∧ r.top ≤ r.bottom

/-- A rectangle that stands in a band before another one, or in an earlier band. -/
def Before (a b : QRect) : Prop :=
  a.top = b.top ∧ a.bottom = b.bottom ∧ a.right < b.left ∨ a.bottom < b.top

theorem Before.trans {a b c : QRect} (hb : b.Nonempty) (hab : a.Before b) (hbc : b.Before c) :
  a.Before c
  := by
  obtain ⟨hwidth, hheight⟩ := hb
  rcases hab with hab | hab
  · rcases hbc with hbc | hbc
    · exact Or.inl (by omega)
    · exact Or.inr (by omega)
  · rcases hbc with hbc | hbc
    · exact Or.inr (by omega)
    · exact Or.inr (by omega)

end QRect

open QRect

instance (r : QRect) : Decidable r.Nonempty :=
  inferInstanceAs (Decidable (_ ∧ _))

instance (a b : QRect) : Decidable (a.Before b) :=
  inferInstanceAs (Decidable (_ ∨ _))

/-- A list of rectangles in bands. -/
structure Banded (l : List QRect) : Prop where
  nonempty : ∀ r ∈ l, r.Nonempty
  before : l.Pairwise Before

theorem banded_iff {l : List QRect} :
  Banded l ↔ (∀ r ∈ l, r.Nonempty) ∧ l.Pairwise Before
  := ⟨fun h => ⟨h.nonempty, h.before⟩, fun h => ⟨h.1, h.2⟩⟩

instance (l : List QRect) : Decidable (Banded l) :=
  decidable_of_iff _ banded_iff.symm

namespace Banded

variable {p q : List QRect} {a b : QRect}

theorem singleton (h : a.Nonempty) :
  Banded [a]
  := by
  constructor
  · intro r hr
    rw [List.mem_singleton.mp hr]
    apply h
  · apply List.pairwise_singleton

theorem append_iff :
  Banded (p ++ q) ↔ Banded p ∧ Banded q ∧ ∀ a ∈ p, ∀ b ∈ q, a.Before b
  := by
  constructor
  · rintro ⟨hnonempty, hbefore⟩
    rw [List.forall_mem_append] at hnonempty
    rw [List.pairwise_append] at hbefore
    exact ⟨⟨hnonempty.1, hbefore.1⟩, ⟨hnonempty.2, hbefore.2.1⟩, hbefore.2.2⟩
  · rintro ⟨hp, hq, hpq⟩
    constructor
    · rw [List.forall_mem_append]
      exact ⟨hp.nonempty, hq.nonempty⟩
    · rw [List.pairwise_append]
      exact ⟨hp.before, hq.before, hpq⟩

theorem cons_iff :
  Banded (a :: q) ↔ a.Nonempty ∧ Banded q ∧ ∀ b ∈ q, a.Before b
  := by
  have happend := append_iff (p := [a]) (q := q)
  rw [List.singleton_append] at happend
  rw [happend]
  constructor
  · rintro ⟨ha, hq, hbefore⟩
    exact ⟨ha.nonempty a List.mem_cons_self, hq, hbefore a List.mem_cons_self⟩
  · rintro ⟨ha, hq, hbefore⟩
    use singleton ha, hq
    intro c hc
    rw [List.mem_singleton.mp hc]
    apply hbefore

/-- Lists follow each other if the last rectangle of the one stands before the first of the other. -/
theorem append_of_before (hp : Banded (p ++ [a])) (hq : Banded (b :: q)) (h : a.Before b) :
  Banded (p ++ [a] ++ b :: q)
  := by
  rw [append_iff]
  use hp, hq
  have ha := hp.nonempty a (List.mem_append_right p List.mem_cons_self)
  obtain ⟨hb, -, hbq⟩ := cons_iff.mp hq
  obtain ⟨-, -, hpa⟩ := append_iff.mp hp
  intro c hc e he
  have hcb : c.Before b := by
    rcases List.mem_append.mp hc with hc | hc
    · apply (hpa c hc a List.mem_cons_self).trans ha h
    · rw [List.mem_singleton.mp hc]
      apply h
  rcases List.mem_cons.mp he with rfl | he
  · apply hcb
  · apply hcb.trans hb (hbq e he)

/-- The rectangles before and behind two neighbours. -/
theorem neighbours_iff :
  Banded (p ++ a :: b :: q) ↔ Banded p ∧ Banded q ∧ a.Nonempty ∧ b.Nonempty ∧ a.Before b
    ∧ (∀ c ∈ p, c.Before a) ∧ (∀ c ∈ p, c.Before b) ∧ (∀ c ∈ q, a.Before c)
    ∧ (∀ c ∈ q, b.Before c) ∧ ∀ c ∈ p, ∀ e ∈ q, c.Before e
  := by
  simp only [append_iff, cons_iff, List.forall_mem_cons, forall_and]
  tauto

/-- A rectangle is put in the place of two neighbours. -/
theorem replace (h : Banded (p ++ a :: b :: q)) {r : QRect} (hr : r.Nonempty)
    (hbefore : ∀ c ∈ p, c.Before r) (hbehind : ∀ c ∈ q, r.Before c) :
  Banded (p ++ r :: q)
  := by
  obtain ⟨hp, hq, -, -, -, -, -, -, -, hpq⟩ := neighbours_iff.mp h
  simp only [append_iff, cons_iff, List.forall_mem_cons]
  use hp, ⟨hr, hq, hbehind⟩
  intro c hc
  exact ⟨hbefore c hc, hpq c hc⟩

end Banded

/-! ### Merging neighbours -/

/-- A list whose rectangles are merged: banded, with the same points. -/
structure SameRegion (l l' : List QRect) : Prop where
  banded : Banded l'
  points : points QRect.points l' = points QRect.points l

theorem SameRegion.trans {l l' l'' : List QRect} (h : SameRegion l l') (h' : SameRegion l' l'') :
  SameRegion l l''
  := ⟨h'.banded, h'.points.trans h.points⟩

variable {p q : List QRect} {a b : QRect}

theorem points_replace_two {r : QRect} (h : r.points = a.points ∪ b.points) :
  points QRect.points (p ++ r :: q) = points QRect.points (p ++ a :: b :: q)
  := by
  simp only [points_append, points_cons, h, Set.union_assoc]

/-- Neighbours in a band that touch. -/
theorem merge_right (h : Banded (p ++ a :: b :: q)) (hmerge : QRegionPrivate.canMergeFromRight a b) :
  SameRegion (p ++ a :: b :: q) (p ++ { a with right := b.right } :: q)
  := by
  obtain ⟨-, -, ⟨haw, hah⟩, ⟨hbw, hbh⟩, hab, hpa, -, -, hbq, -⟩ :=
    Banded.neighbours_iff.mp h
  rw [QRegionPrivate.canMergeFromRight, Bool.and_eq_true, Bool.and_eq_true, decide_eq_true_iff,
    decide_eq_true_iff, decide_eq_true_iff] at hmerge
  obtain ⟨⟨htop, hbottom⟩, htouch⟩ := hmerge
  have hright : a.right < b.left := by
    rcases hab with hab | hab
    · omega
    · omega
  constructor
  · apply h.replace
    · constructor
      · change a.left ≤ b.right
        omega
      · apply hah
    · apply hpa
    · intro c hc
      have hbc := hbq c hc
      rw [Before, htop, hbottom] at hbc
      apply hbc
  · apply points_replace_two
    ext ⟨x, y⟩
    rw [Set.mem_union, mem_points, mem_points, mem_points]
    dsimp only
    omega

/-- Whether the rectangles before a rectangle are in earlier bands. -/
theorem above_of_getLast (hp : Banded p) (hpa : ∀ c ∈ p, c.Before a)
    (h : p.getLast?.any (·.top = a.top) = false) :
  ∀ c ∈ p, c.bottom < a.top
  := by
  rcases List.eq_nil_or_concat p with rfl | ⟨p', e, rfl⟩
  · intro c hc
    cases hc
  · rw [List.concat_eq_append] at hp hpa h ⊢
    rw [List.getLast?_concat, Option.any_some, decide_eq_false_iff_not] at h
    have he : e.bottom < a.top := by
      rcases hpa e (List.mem_append_right p' List.mem_cons_self) with hea | hea
      · exact absurd hea.1 h
      · exact hea
    obtain ⟨-, -, hbefore⟩ := Banded.append_iff.mp hp
    have hheight := (hp.nonempty e (List.mem_append_right p' List.mem_cons_self)).2
    intro c hc
    rcases List.mem_append.mp hc with hc | hc
    · rcases hbefore c hc e List.mem_cons_self with hce | hce
      · omega
      · omega
    · rw [List.mem_singleton.mp hc]
      exact he

theorem below_of_head (hq : Banded q) (hbq : ∀ c ∈ q, b.Before c)
    (h : q.head?.any (·.top = b.top) = false) :
  ∀ c ∈ q, b.bottom < c.top
  := by
  cases q with
  | nil =>
    intro c hc
    cases hc
  | cons e q =>
    rw [List.head?_cons, Option.any_some, decide_eq_false_iff_not] at h
    obtain ⟨⟨-, hheight⟩, -, heq⟩ := Banded.cons_iff.mp hq
    have he : b.bottom < e.top := by
      rcases hbq e List.mem_cons_self with hbe | hbe
      · exact absurd hbe.1.symm h
      · exact hbe
    intro c hc
    rcases List.mem_cons.mp hc with rfl | hc
    · exact he
    · rcases heq c hc with hec | hec
      · omega
      · omega

/-- Neighbours that are alone in their bands and touch. -/
theorem merge_below (h : Banded (p ++ a :: b :: q))
    (hmerge : QRegionPrivate.canMergeFromBelow a b p.getLast? q.head?) :
  SameRegion (p ++ a :: b :: q) (p ++ { a with bottom := b.bottom } :: q)
  := by
  obtain ⟨hp, hq, ⟨haw, hah⟩, ⟨hbw, hbh⟩, hab, hpa, -, -, hbq, -⟩ :=
    Banded.neighbours_iff.mp h
  rw [QRegionPrivate.canMergeFromBelow] at hmerge
  split_ifs at hmerge with hfirst hlast
  rw [Bool.and_eq_true, Bool.and_eq_true, decide_eq_true_iff, decide_eq_true_iff,
    decide_eq_true_iff] at hmerge
  obtain ⟨⟨htouch, hleft⟩, hright⟩ := hmerge
  have habove := above_of_getLast hp hpa (Bool.not_eq_true _ ▸ hfirst)
  have hbelow := below_of_head hq hbq (Bool.not_eq_true _ ▸ hlast)
  have horder : a.bottom < b.top := by
    rcases hab with hab | hab
    · omega
    · exact hab
  constructor
  · apply h.replace
    · constructor
      · apply haw
      · change a.top ≤ b.bottom
        omega
    · intro c hc
      exact Or.inr (habove c hc)
    · intro c hc
      exact Or.inr (hbelow c hc)
  · apply points_replace_two
    ext ⟨x, y⟩
    rw [Set.mem_union, mem_points, mem_points, mem_points]
    dsimp only
    omega

/-! ### Bounds -/

/-- The bounding rectangle of points. -/
structure Bounds (s : Set (ℤ × ℤ)) (r : QRect) : Prop where
  subset : s ⊆ r.points
  left : ∃ y, (r.left, y) ∈ s
  top : ∃ x, (x, r.top) ∈ s
  right : ∃ y, (r.right, y) ∈ s
  bottom : ∃ x, (x, r.bottom) ∈ s

theorem bounds_points (h : a.Nonempty) :
  Bounds a.points a
  := by
  obtain ⟨hwidth, hheight⟩ := h
  constructor
  · apply subset_rfl
  · use a.top
    rw [mem_points]
    omega
  · use a.left
    rw [mem_points]
    omega
  · use a.bottom
    rw [mem_points]
    omega
  · use a.right
    rw [mem_points]
    omega

theorem Bounds.union {s t : Set (ℤ × ℤ)} (hs : Bounds s a) (ht : Bounds t b) :
  Bounds (s ∪ t) (a.united b)
  := by
  have hmin {m n : ℤ} {f : ℤ → ℤ → ℤ × ℤ} (hm : ∃ z, f m z ∈ s) (hn : ∃ z, f n z ∈ t) :
      ∃ z, f (min m n) z ∈ s ∪ t := by
    rcases min_choice m n with h | h
    · rw [h]
      exact hm.imp fun _ => Or.inl
    · rw [h]
      exact hn.imp fun _ => Or.inr
  have hmax {m n : ℤ} {f : ℤ → ℤ → ℤ × ℤ} (hm : ∃ z, f m z ∈ s) (hn : ∃ z, f n z ∈ t) :
      ∃ z, f (max m n) z ∈ s ∪ t := by
    rcases max_choice m n with h | h
    · rw [h]
      exact hm.imp fun _ => Or.inl
    · rw [h]
      exact hn.imp fun _ => Or.inr
  constructor
  · rintro ⟨x, y⟩ h
    have hin : (x, y) ∈ a.points ∨ (x, y) ∈ b.points := by
      rcases h with h | h
      · exact Or.inl (hs.subset h)
      · exact Or.inr (ht.subset h)
    rw [mem_points] at hin ⊢
    rw [mem_points] at hin
    dsimp only [united]
    omega
  · exact hmin (f := fun x y => (x, y)) hs.left ht.left
  · exact hmin (f := fun y x => (x, y)) hs.top ht.top
  · exact hmax (f := fun x y => (x, y)) hs.right ht.right
  · exact hmax (f := fun y x => (x, y)) hs.bottom ht.bottom

theorem bounds_list {l : List QRect} (h : Banded (l ++ [a])) :
  Bounds (points QRect.points (l ++ [a])) (l.foldr united a)
  := by
  induction l with
  | nil =>
    rw [List.nil_append, points_cons, points_nil, Set.union_empty]
    apply bounds_points (h.nonempty a List.mem_cons_self)
  | cons b l ih =>
    obtain ⟨hb, hl, -⟩ := Banded.cons_iff.mp h
    rw [List.cons_append, points_cons]
    apply (bounds_points hb).union (ih hl)

/-- Points have one bounding rectangle. -/
theorem Bounds.unique {s : Set (ℤ × ℤ)} (ha : Bounds s a) (hb : Bounds s b) :
  a = b
  := by
  have hle {a b : QRect} (ha : Bounds s a) (hb : Bounds s b) :
      b.left ≤ a.left ∧ b.top ≤ a.top ∧ a.right ≤ b.right ∧ a.bottom ≤ b.bottom := by
    obtain ⟨y, hleft⟩ := ha.left
    obtain ⟨x, htop⟩ := ha.top
    obtain ⟨y', hright⟩ := ha.right
    obtain ⟨x', hbottom⟩ := ha.bottom
    exact ⟨(hb.subset hleft).1.1, (hb.subset htop).2.1, (hb.subset hright).1.2,
      (hb.subset hbottom).2.2⟩
  obtain ⟨h1, h2, h3, h4⟩ := hle ha hb
  obtain ⟨h5, h6, h7, h8⟩ := hle hb ha
  obtain ⟨l, t, r, m⟩ := a
  obtain ⟨l', t', r', m'⟩ := b
  dsimp only at *
  rw [le_antisymm h5 h1, le_antisymm h6 h2, le_antisymm h3 h7, le_antisymm h4 h8]
