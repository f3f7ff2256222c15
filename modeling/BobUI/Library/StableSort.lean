import Mathlib.Data.List.Sort
import Mathlib.Data.List.Perm.Basic

/-!
# Stable sorting by a comparison

A library's stable sort takes a comparison, and promises something only where that comparison is
a strict weak order on the members of the list.  `IsStableSort` is that promise.  Where the
comparison is no such order, a stable sort may return anything.
-/

namespace StableSort

variable {α : Type}

/-- A strict weak order on the members of a list. -/
structure StrictWeakOrderOn (less : α → α → Bool) (l : List α) : Prop where
  irrefl : ∀ a ∈ l, less a a = false
  trans : ∀ a ∈ l, ∀ b ∈ l, ∀ c ∈ l, less a b = true → less b c = true → less a c = true
  split : ∀ a ∈ l, ∀ b ∈ l, ∀ c ∈ l, less a c = true → less a b = true ∨ less b c = true

/-- No member is less than an earlier one. -/
def Sorted (less : α → α → Bool) (l : List α) : Prop :=
  l.Pairwise fun a b => less b a = false

/-- What a stable sort promises. -/
structure IsStableSort (sort : (α → α → Bool) → List α → List α) : Prop where
  perm : ∀ less l, StrictWeakOrderOn less l → (sort less l).Perm l
  sorted : ∀ less l, StrictWeakOrderOn less l → Sorted less (sort less l)
  stable : ∀ less l, StrictWeakOrderOn less l → ∀ a b, [a, b].Sublist l → less b a = false →
    [a, b].Sublist (sort less l)

namespace StrictWeakOrderOn

variable {less : α → α → Bool} {l : List α}

theorem asymm (h : StrictWeakOrderOn less l) {a b : α} (ha : a ∈ l) (hb : b ∈ l)
    (hless : less a b = true) :
  less b a = false
  := by
  rw [← Bool.not_eq_true]
  intro hgreater
  have hself := h.trans a ha b hb a ha hless hgreater
  rw [h.irrefl a ha] at hself
  cases hself

theorem mono (h : StrictWeakOrderOn less l) {l' : List α} (hl : ∀ a ∈ l', a ∈ l) :
  StrictWeakOrderOn less l'
  where
  irrefl a ha := h.irrefl a (hl a ha)
  trans a ha b hb c hc := h.trans a (hl a ha) b (hl b hb) c (hl c hc)
  split a ha b hb c hc := h.split a (hl a ha) b (hl b hb) c (hl c hc)

/-- A list whose members are less than the later ones, and not the other way round. -/
theorem of_pairwise (hself : ∀ a ∈ l, less a a = false)
    (h : l.Pairwise fun a b => less a b = true ∧ less b a = false) :
  StrictWeakOrderOn less l
  := by
  have hlt : ∀ i (hi : i < l.length) j (hj : j < l.length),
      less l[i] l[j] = true ↔ i < j := by
    intro i hi j hj
    rw [List.pairwise_iff_getElem] at h
    rcases Nat.lt_trichotomy i j with hlt | rfl | hgt
    · exact iff_of_true (h i j hi hj hlt).1 hlt
    · rw [hself _ (List.getElem_mem hi)]
      exact iff_of_false Bool.false_ne_true (Nat.lt_irrefl i)
    · rw [(h j i hj hi hgt).2]
      exact iff_of_false Bool.false_ne_true (Nat.lt_asymm hgt)
  constructor
  · exact hself
  · intro a ha b hb c hc
    obtain ⟨i, hi, rfl⟩ := List.getElem_of_mem ha
    obtain ⟨j, hj, rfl⟩ := List.getElem_of_mem hb
    obtain ⟨k, hk, rfl⟩ := List.getElem_of_mem hc
    rw [hlt i hi j hj, hlt j hj k hk, hlt i hi k hk]
    exact Nat.lt_trans
  · intro a ha b hb c hc
    obtain ⟨i, hi, rfl⟩ := List.getElem_of_mem ha
    obtain ⟨j, hj, rfl⟩ := List.getElem_of_mem hb
    obtain ⟨k, hk, rfl⟩ := List.getElem_of_mem hc
    rw [hlt i hi j hj, hlt j hj k hk, hlt i hi k hk]
    omega

end StrictWeakOrderOn

/-- A stable sort keeps a list that is in order. -/
theorem IsStableSort.sort_eq {sort : (α → α → Bool) → List α → List α} (hsort : IsStableSort sort)
    {less : α → α → Bool} {l : List α} (hself : ∀ a ∈ l, less a a = false)
    (h : l.Pairwise fun a b => less a b = true ∧ less b a = false) :
  sort less l = l
  := by
  have horder := StrictWeakOrderOn.of_pairwise hself h
  have hperm := hsort.perm less l horder
  apply hperm.eq_of_pairwise _ (hsort.sorted less l horder)
  · exact h.imp fun hless => hless.2
  · intro a b ha hb hab hba
    obtain ⟨i, hi, rfl⟩ := List.getElem_of_mem (hperm.mem_iff.mp ha)
    obtain ⟨j, hj, rfl⟩ := List.getElem_of_mem hb
    rw [List.pairwise_iff_getElem] at h
    rcases Nat.lt_trichotomy i j with hlt | rfl | hgt
    · rw [(h i j hi hj hlt).1] at hba
      cases hba
    · rfl
    · rw [(h j i hj hi hgt).1] at hab
      cases hab

/-! ### The sort that promises nothing more -/

/-- Merge sort where the comparison is a strict weak order on the members, and the empty list
otherwise. -/
noncomputable def leastSort (less : α → α → Bool) (l : List α) : List α :=
  open Classical in
  if StrictWeakOrderOn less l then
    (l.attach.mergeSort fun a b => !less b.val a.val).map Subtype.val
  else []

theorem leastSort_of_not {less : α → α → Bool} {l : List α} (h : ¬ StrictWeakOrderOn less l) :
  leastSort less l = []
  := if_neg h

theorem isStableSort_leastSort :
  IsStableSort (leastSort (α := α))
  := by
  have htrans : ∀ {less : α → α → Bool} {l : List α}, StrictWeakOrderOn less l →
      ∀ a b c : { x // x ∈ l }, (!less b.val a.val) = true → (!less c.val b.val) = true →
        (!less c.val a.val) = true := by
    intro less l h a b c hab hbc
    rw [Bool.not_eq_true'] at hab hbc ⊢
    rw [← Bool.not_eq_true]
    intro hca
    rcases h.split c.val c.property b.val b.property a.val a.property hca with hcb | hba
    · rw [hcb] at hbc
      cases hbc
    · rw [hba] at hab
      cases hab
  have htotal : ∀ {less : α → α → Bool} {l : List α}, StrictWeakOrderOn less l →
      ∀ a b : { x // x ∈ l }, (!less b.val a.val || !less a.val b.val) = true := by
    intro less l h a b
    cases hba : less b.val a.val with
    | false => rfl
    | true => rw [h.asymm b.property a.property hba]; rfl
  constructor
  · intro less l h
    rw [leastSort, if_pos h]
    have hperm := (List.mergeSort_perm l.attach fun a b => !less b.val a.val).map Subtype.val
    rwa [List.attach_map_subtype_val] at hperm
  · intro less l h
    rw [leastSort, if_pos h, Sorted, List.pairwise_map]
    apply (List.pairwise_mergeSort (htrans h) (htotal h) l.attach).imp
    intro a b hab
    rwa [Bool.not_eq_true'] at hab
  · intro less l h a b hsublist hless
    rw [leastSort, if_pos h]
    rw [← List.attach_map_subtype_val l] at hsublist
    obtain ⟨pair, hpair, hmap⟩ := List.sublist_map_iff.mp hsublist
    obtain ⟨a, tail, rfl, rfl, htail⟩ := List.map_eq_cons_iff.mp hmap.symm
    obtain ⟨b, tail, rfl, rfl, hnil⟩ := List.map_eq_cons_iff.mp htail
    rw [List.map_eq_nil_iff.mp hnil] at hpair
    have hsorted := List.pair_sublist_mergeSort (htrans h) (htotal h) (by rw [hless]; rfl) hpair
    exact hsorted.map Subtype.val

end StableSort
