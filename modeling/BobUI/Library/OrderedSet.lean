import Mathlib.Data.List.Basic
import Mathlib.Order.Lattice

/-!
# Ordered sets over a comparison

A set ordered by a comparison `lt` is the list of its elements in increasing order.
`insert`, `erase` and `lowerBound` walk the list comparing with `lt` alone, and treat
two elements neither of which is below the other as equal.  `StrictOn lt P` says that
`lt` is a strict total order on the elements satisfying `P`; on such elements the
operations are those of a finite set, and they keep the list sorted.
-/

namespace OrderedSet

variable {α : Type*} (lt : α → α → Bool)

/-- The first element that is not below `k`. -/
def lowerBound (s : List α) (k : α) : Option α :=
  s.find? fun e => !lt e k

/-- The set with `k` added, unless an equivalent element is there already. -/
def insert : List α → α → List α
  | [], k => [k]
  | e :: s, k => if lt e k then e :: insert s k else if lt k e then k :: e :: s else e :: s

/-- The set without the element equivalent to `k`. -/
def erase : List α → α → List α
  | [], _ => []
  | e :: s, k => if lt e k then e :: erase s k else if lt k e then e :: s else s

/-- The elements stand in increasing order. -/
def Sorted (s : List α) : Prop :=
  s.Pairwise fun a b => lt a b = true

/-- `lt` is a strict total order on the elements satisfying `P`. -/
structure StrictOn (P : α → Prop) : Prop where
  irrefl : ∀ {a}, P a → lt a a = false
  trans : ∀ {a b c}, P a → P b → P c → lt a b = true → lt b c = true → lt a c = true
  total : ∀ {a b}, P a → P b → a ≠ b → lt a b = true ∨ lt b a = true

variable {lt} {P : α → Prop}

/-- A comparison that agrees with the order of an injective rank is a strict total order. -/
theorem StrictOn.ofRank {β : Type*} [LinearOrder β] (rank : α → β)
    (hlt : ∀ {a b}, P a → P b → (lt a b = true ↔ rank a < rank b))
    (hinj : ∀ {a b}, P a → P b → rank a = rank b → a = b) :
  StrictOn lt P
  := by
  constructor
  · intro a ha
    rw [← Bool.not_eq_true, hlt ha ha]
    apply lt_irrefl
  · intro a b c ha hb hc hab hbc
    rw [hlt ha hc]
    apply lt_trans ((hlt ha hb).mp hab) ((hlt hb hc).mp hbc)
  · intro a b ha hb hne
    rw [hlt ha hb, hlt hb ha]
    apply lt_or_gt_of_ne
    intro h
    apply hne (hinj ha hb h)

variable {s : List α} {k : α} {lt' : α → α → Bool}

/-- Inserting `k` depends on the comparisons of `k` with the elements only. -/
theorem insert_congr (h : ∀ e ∈ s, lt e k = lt' e k ∧ lt k e = lt' k e) :
  insert lt s k = insert lt' s k
  := by
  induction s with
  | nil => rfl
  | cons e s ih =>
    obtain ⟨hek, hke⟩ := h e List.mem_cons_self
    rw [insert, insert, hek, hke, ih fun y hy => h y (List.mem_cons_of_mem e hy)]

/-- Erasing `k` depends on the comparisons of `k` with the elements only. -/
theorem erase_congr (h : ∀ e ∈ s, lt e k = lt' e k ∧ lt k e = lt' k e) :
  erase lt s k = erase lt' s k
  := by
  induction s with
  | nil => rfl
  | cons e s ih =>
    obtain ⟨hek, hke⟩ := h e List.mem_cons_self
    rw [erase, erase, hek, hke, ih fun y hy => h y (List.mem_cons_of_mem e hy)]

/-- The lower bound of `k` depends on the comparisons of the elements with `k` only. -/
theorem lowerBound_congr (h : ∀ e ∈ s, lt e k = lt' e k) :
  lowerBound lt s k = lowerBound lt' s k
  := by
  induction s with
  | nil => rfl
  | cons e s ih =>
    have ih := ih fun y hy => h y (List.mem_cons_of_mem e hy)
    simp only [lowerBound] at ih ⊢
    rw [List.find?_cons, List.find?_cons, h e List.mem_cons_self, ih]

theorem mem_insert (h : StrictOn lt P) (hs : ∀ e ∈ s, P e) (hk : P k) (x : α) :
  x ∈ insert lt s k ↔ x = k ∨ x ∈ s
  := by
  induction s with
  | nil => simp [insert]
  | cons e s ih =>
    have ih := ih fun y hy => hs y (List.mem_cons_of_mem e hy)
    rw [insert]
    split_ifs with hek hke
    · rw [List.mem_cons, ih, List.mem_cons]
      tauto
    · simp
    · obtain rfl : e = k := by
        by_contra hne
        rcases h.total (hs e List.mem_cons_self) hk hne with h' | h'
        · apply hek h'
        · apply hke h'
      simp

theorem sorted_insert (h : StrictOn lt P) (hs : ∀ e ∈ s, P e) (hk : P k) (hsort : Sorted lt s) :
  Sorted lt (insert lt s k)
  := by
  induction s with
  | nil => simp [insert, Sorted]
  | cons e s ih =>
    have hs' : ∀ y ∈ s, P y := fun y hy => hs y (List.mem_cons_of_mem e hy)
    have he := hs e List.mem_cons_self
    obtain ⟨hfirst, hrest⟩ := List.pairwise_cons.mp hsort
    rw [insert]
    split_ifs with hek hke
    · apply List.pairwise_cons.mpr
      constructor
      · intro y hy
        rcases (mem_insert h hs' hk y).mp hy with rfl | hy
        · apply hek
        · apply hfirst y hy
      · apply ih hs' hrest
    · apply List.pairwise_cons.mpr
      constructor
      · intro y hy
        rcases List.mem_cons.mp hy with rfl | hy
        · apply hke
        · apply h.trans hk he (hs' y hy) hke (hfirst y hy)
      · apply hsort
    · apply hsort

theorem erase_sublist (s : List α) (k : α) :
  (erase lt s k).Sublist s
  := by
  induction s with
  | nil => simp [erase]
  | cons e s ih =>
    rw [erase]
    split_ifs
    · apply List.Sublist.cons_cons e ih
    · apply List.Sublist.refl
    · apply List.sublist_cons_self

theorem sorted_erase (hsort : Sorted lt s) (k : α) :
  Sorted lt (erase lt s k)
  := List.Pairwise.sublist (erase_sublist s k) hsort

/-- Erasing an element of a sorted set removes that element and no other. -/
theorem mem_erase (h : StrictOn lt P) (hs : ∀ e ∈ s, P e) (hsort : Sorted lt s) (hk : k ∈ s)
    (x : α) :
  x ∈ erase lt s k ↔ x ∈ s ∧ x ≠ k
  := by
  induction s with
  | nil => cases hk
  | cons e s ih =>
    have hs' : ∀ y ∈ s, P y := fun y hy => hs y (List.mem_cons_of_mem e hy)
    have he := hs e List.mem_cons_self
    have hPk := hs k hk
    obtain ⟨hfirst, hrest⟩ := List.pairwise_cons.mp hsort
    have below : ∀ y ∈ s, y ≠ e := by
      rintro y hy rfl
      have hyy := hfirst y hy
      rw [h.irrefl he] at hyy
      cases hyy
    rw [erase]
    rcases List.mem_cons.mp hk with rfl | hks
    · rw [if_neg, if_neg]
      · constructor
        · intro hx
          use List.mem_cons_of_mem k hx
          apply below x hx
        · rintro ⟨hx, hne⟩
          apply (List.mem_cons.mp hx).resolve_left hne
      · simp [h.irrefl he]
      · simp [h.irrefl he]
    · rw [if_pos (hfirst k hks), List.mem_cons, ih hs' hrest hks, List.mem_cons]
      constructor
      · rintro (rfl | ⟨hx, hne⟩)
        · use Or.inl rfl
          apply (below k hks).symm
        · use Or.inr hx
      · rintro ⟨rfl | hx, hne⟩
        · left; rfl
        · right; use hx

theorem lowerBound_mem {e : α} (h : lowerBound lt s k = some e) :
  e ∈ s ∧ lt e k = false
  := by
  constructor
  · apply List.mem_of_find?_eq_some h
  · simpa using List.find?_some h

/-- The lower bound of `k` is below every other element that is not below `k`. -/
theorem lowerBound_le {e x : α} (hsort : Sorted lt s) (h : lowerBound lt s k = some e) (hx : x ∈ s)
    (hxk : lt x k = false) :
  x = e ∨ lt e x = true
  := by
  induction s with
  | nil => cases hx
  | cons y s ih =>
    obtain ⟨hfirst, hrest⟩ := List.pairwise_cons.mp hsort
    rw [lowerBound, List.find?_cons] at h
    cases hy : lt y k with
    | false =>
      simp only [hy, Bool.not_false, Option.some.injEq] at h
      subst h
      rcases List.mem_cons.mp hx with rfl | hx
      · left; rfl
      · right; apply hfirst x hx
    | true =>
      simp only [hy, Bool.not_true] at h
      rcases List.mem_cons.mp hx with rfl | hx
      · rw [hy] at hxk
        cases hxk
      · apply ih hrest h hx

theorem lowerBound_eq_none (h : lowerBound lt s k = none) {x : α} (hx : x ∈ s) :
  lt x k = true
  := by
  have := List.find?_eq_none.mp h x hx
  simpa using this

end OrderedSet
