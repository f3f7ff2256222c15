import Mathlib.Algebra.GroupWithZero.Nat
import Mathlib.Algebra.Order.BigOperators.Group.List
import Mathlib.Algebra.Order.Group.Nat
import Mathlib.Data.List.Induction
import Mathlib.Data.List.Nodup
import Mathlib.Data.List.Perm.Subperm

/-!
# Size-bounded queues

A queue over weighted elements holds its newest element at the front, and a bound on the
total weight of its elements.  Pushing an element, or lowering the bound, drops elements
from the back until the weight is within the bound.
-/

/-- The total weight of a list. -/
def weightOf {α : Type*} (w : α → ℕ) (l : List α) : ℕ :=
  (l.map w).sum

/-- A queue of total weight at most `capacity`, the newest element first. -/
structure BoundedFifo {α : Type*} (w : α → ℕ) where
  capacity : ℕ
  entries : List α
  fits : weightOf w entries ≤ capacity

namespace BoundedFifo

variable {α : Type*} {w : α → ℕ}

@[simp]
theorem weightOf_nil :
  weightOf w [] = 0
  := rfl

@[simp]
theorem weightOf_cons (x : α) (l : List α) :
  weightOf w (x :: l) = w x + weightOf w l
  := by
  simp [weightOf]

@[simp]
theorem weightOf_append (l l' : List α) :
  weightOf w (l ++ l') = weightOf w l + weightOf w l'
  := by
  simp [weightOf]

variable {l : List α} {x : α} {c : ℕ} {q : BoundedFifo w}

theorem le_weightOf_of_mem (h : x ∈ l) :
  w x ≤ weightOf w l
  := by
  apply List.single_le_sum (fun _ _ => Nat.zero_le _)
  apply List.mem_map_of_mem h

variable (w) in
/-- The list `l` with elements dropped from the back until its weight is at most `c`. -/
def trim (c : ℕ) (l : List α) : List α :=
  if weightOf w l ≤ c then l else trim c l.dropLast
termination_by l.length
decreasing_by
  rename_i h
  cases l with
  | nil => simp at h
  | cons x l => simp

theorem trim_of_le (h : weightOf w l ≤ c) :
  trim w c l = l
  := by
  rw [trim, if_pos h]

/-- A list too heavy for the bound loses its last element. -/
theorem trim_concat (h : c < weightOf w (l ++ [x])) :
  trim w c (l ++ [x]) = trim w c l
  := by
  rw [trim, if_neg (Nat.not_le.mpr h), List.dropLast_concat]

theorem weightOf_trim_le (c : ℕ) (l : List α) :
  weightOf w (trim w c l) ≤ c
  := by
  induction l using List.reverseRecOn with
  | nil => rw [trim_of_le (Nat.zero_le c)]; apply Nat.zero_le
  | append_singleton l x ih =>
    by_cases h : weightOf w (l ++ [x]) ≤ c
    · rw [trim_of_le h]
      apply h
    · rw [trim_concat (Nat.not_le.mp h)]
      apply ih

/-- Only the element itself is left of a front element that fits, in front of what fits
in the rest of the bound. -/
theorem trim_cons (l : List α) (h : w x ≤ c) :
  trim w c (x :: l) = x :: trim w (c - w x) l
  := by
  induction l using List.reverseRecOn with
  | nil => rw [trim_of_le (by simpa using h), trim_of_le (by simp)]
  | append_singleton l y ih =>
    by_cases hfit : weightOf w (x :: (l ++ [y])) ≤ c
    · rw [trim_of_le hfit, trim_of_le]
      rw [weightOf_cons] at hfit
      omega
    · have hover : c < weightOf w ((x :: l) ++ [y]) := Nat.not_le.mp hfit
      rw [← List.cons_append, trim_concat hover, ih, trim_concat]
      rw [List.cons_append, weightOf_cons] at hover
      omega

/-- Nothing is left of a list whose front element does not fit. -/
theorem trim_cons_of_lt (l : List α) (h : c < w x) :
  trim w c (x :: l) = []
  := by
  induction l using List.reverseRecOn with
  | nil =>
    rw [← List.nil_append [x], trim_concat (by simpa using h), trim_of_le (Nat.zero_le c)]
  | append_singleton l y ih =>
    rw [← List.cons_append, trim_concat, ih]
    rw [List.cons_append, weightOf_cons]
    omega

theorem trim_zero (h : ∀ x ∈ l, 0 < w x) :
  trim w 0 l = []
  := by
  cases l with
  | nil => rw [trim_of_le (Nat.zero_le 0)]
  | cons x l => rw [trim_cons_of_lt l (h x List.mem_cons_self)]

variable (w) in
/-- The empty queue of capacity `c`. -/
def empty (c : ℕ) : BoundedFifo w :=
  ⟨c, [], Nat.zero_le c⟩

/-- The queue with `x` in front, and what no longer fits dropped from the back. -/
def push (q : BoundedFifo w) (x : α) : BoundedFifo w :=
  ⟨q.capacity, trim w q.capacity (x :: q.entries), weightOf_trim_le _ _⟩

/-- The queue with capacity `c`, and what no longer fits dropped from the back. -/
def resize (q : BoundedFifo w) (c : ℕ) : BoundedFifo w :=
  ⟨c, trim w c q.entries, weightOf_trim_le _ _⟩

/-- The queue with all elements dropped. -/
def clear (q : BoundedFifo w) : BoundedFifo w :=
  empty w q.capacity

/-! ### Pushing what is missing -/

theorem trim_front (c : ℕ) (l : List α) :
  trim w c l <+: l
  := by
  induction l using List.reverseRecOn with
  | nil =>
    have hnil : trim w c [] = [] := trim_of_le (Nat.zero_le c)
    simp only [hnil, List.prefix_rfl]
  | append_singleton l x ih =>
    by_cases h : weightOf w (l ++ [x]) ≤ c
    · simp only [trim_of_le h, List.prefix_rfl]
    · rw [trim_concat (Nat.not_le.mp h)]
      apply ih.trans (List.prefix_append l [x])

/-- What is left of a list is the longest part that fits. -/
theorem prefix_trim {l' : List α} (h : l' <+: l) (hfits : weightOf w l' ≤ c) :
  l' <+: trim w c l
  := by
  induction l using List.reverseRecOn with
  | nil => rwa [trim_of_le (Nat.zero_le c)]
  | append_singleton l x ih =>
    by_cases hall : weightOf w (l ++ [x]) ≤ c
    · rwa [trim_of_le hall]
    · rw [trim_concat (Nat.not_le.mp hall)]
      rcases List.prefix_concat_iff.mp h with rfl | hprefix
      · cases hall hfits
      · apply ih hprefix

/-- A list is left where it fits and does not fit together with what follows. -/
theorem trim_append_cons (r : List α) (hfits : weightOf w l ≤ c)
    (hover : c < weightOf w l + w x) :
  trim w c (l ++ x :: r) = l
  := by
  induction r using List.reverseRecOn with
  | nil =>
    rw [trim_concat (by simpa using hover), trim_of_le hfits]
  | append_singleton r y ih =>
    rw [← List.cons_append, ← List.append_assoc, trim_concat, ih]
    simp only [weightOf_append, weightOf_cons]
    omega

theorem trim_append_trim (c : ℕ) (l r : List α) :
  trim w c (l ++ trim w c r) = trim w c (l ++ r)
  := by
  induction r using List.reverseRecOn with
  | nil => rw [trim_of_le (l := []) (Nat.zero_le c)]
  | append_singleton r x ih =>
    by_cases h : weightOf w (r ++ [x]) ≤ c
    · rw [trim_of_le h]
    · have hover : c < weightOf w (l ++ (r ++ [x])) := by
        rw [weightOf_append]
        omega
      rw [trim_concat (Nat.not_le.mp h), ih, ← List.append_assoc, trim_concat]
      rwa [List.append_assoc]

variable [DecidableEq α]

/-- The queue with `x` in front, unless it has it already. -/
def pushMissing (q : BoundedFifo w) (x : α) : BoundedFifo w :=
  if x ∈ q.entries then q else q.push x

/-- The elements that are pushed, of a list that is gone through. -/
def missing (q : BoundedFifo w) : List α → List α
  | [] => []
  | x :: l => if x ∈ q.entries then missing q l else x :: missing (q.push x) l

theorem missing_sublist (q : BoundedFifo w) (l : List α) :
  (q.missing l).Sublist l
  := by
  induction l generalizing q with
  | nil => apply List.Sublist.refl
  | cons x l ih =>
    rw [missing]
    split_ifs
    · apply (ih q).cons
    · apply (ih _).cons_cons

theorem foldl_pushMissing_capacity (q : BoundedFifo w) (l : List α) :
  (l.foldl pushMissing q).capacity = q.capacity
  := by
  induction l generalizing q with
  | nil => rfl
  | cons x l ih =>
    rw [List.foldl_cons, ih, pushMissing]
    split_ifs
    · rfl
    · rfl

theorem foldl_pushMissing_entries (q : BoundedFifo w) (l : List α) :
  (l.foldl pushMissing q).entries = trim w q.capacity ((q.missing l).reverse ++ q.entries)
  := by
  induction l generalizing q with
  | nil => rw [List.foldl_nil, missing, List.reverse_nil, List.nil_append, trim_of_le q.fits]
  | cons x l ih =>
    rw [List.foldl_cons, pushMissing, missing]
    split_ifs
    · apply ih
    · rw [ih, List.reverse_cons, List.append_assoc, List.singleton_append]
      apply trim_append_trim

/-- An element that is not pushed was in the queue at the beginning, or has been pushed. -/
theorem mem_or_mem_missing (q : BoundedFifo w) (h : x ∈ l) :
  x ∈ q.entries ∨ x ∈ q.missing l
  := by
  induction l generalizing q with
  | nil => cases h
  | cons y l ih =>
    rw [missing]
    split_ifs with hy
    · rcases List.mem_cons.mp h with rfl | hl
      · left
        apply hy
      · apply ih q hl
    · rcases List.mem_cons.mp h with rfl | hl
      · right
        apply List.mem_cons_self
      · rcases ih (q.push y) hl with hpush | hmissing
        · rcases List.mem_cons.mp ((trim_front _ _).subset hpush) with rfl | hq
          · right
            apply List.mem_cons_self
          · left
            apply hq
        · right
          apply List.mem_cons_of_mem y hmissing

/-- Elements of which none is left of what has been pushed before it are all pushed. -/
theorem missing_eq_self (h : ∀ before x after, l = before ++ x :: after →
      x ∉ trim w q.capacity (before.reverse ++ q.entries)) :
  q.missing l = l
  := by
  induction l generalizing q with
  | nil => rfl
  | cons x l ih =>
    have hx : x ∉ q.entries := by
      have hfirst := h [] x l rfl
      rwa [List.reverse_nil, List.nil_append, trim_of_le q.fits] at hfirst
    rw [missing, if_neg hx, ih]
    rintro before y after rfl
    have hy := h (x :: before) y after rfl
    rw [List.reverse_cons, List.append_assoc, List.singleton_append] at hy
    rwa [push, trim_append_trim]

/-- The head of what is pushed was not in the queue. -/
theorem head_missing {l' : List α} (h : q.missing l = x :: l') :
  x ∉ q.entries
  := by
  induction l with
  | nil => cases h
  | cons y l ih =>
    rw [missing] at h
    split_ifs at h with hy
    · apply ih h
    · cases h
      apply hy

theorem missing_eq_nil_iff :
  q.missing l = [] ↔ ∀ x ∈ l, x ∈ q.entries
  := by
  induction l with
  | nil => simp [missing]
  | cons x l ih =>
    rw [missing, List.forall_mem_cons]
    split_ifs with hx
    · rw [ih]
      constructor
      · intro hl
        use hx
      · rintro ⟨-, hl⟩
        apply hl
    · constructor
      · intro hnil
        cases hnil
      · rintro ⟨hmem, -⟩
        cases hx hmem

/-- Where the queue comes back, but has been pushed to, all of its elements have been pushed again,
behind one that does not fit beside them. -/
theorem missing_eq_of_entries_eq (heq : (l.foldl pushMissing q).entries = q.entries)
    (hne : q.missing l ≠ []) :
  ∃ before x, q.missing l = before ++ x :: q.entries.reverse ∧
    q.capacity < weightOf w q.entries + w x
  := by
  rw [foldl_pushMissing_entries] at heq
  have hprefix : q.entries <+: (q.missing l).reverse ++ q.entries := by
    have htrim := trim_front (w := w) q.capacity ((q.missing l).reverse ++ q.entries)
    rwa [heq] at htrim
  obtain ⟨first, pushed, hmissing⟩ := List.exists_cons_of_ne_nil hne
  have hshort : q.entries.length < (q.missing l).reverse.length := by
    by_contra hlong
    have hagain := List.prefix_of_prefix_length_le (List.prefix_append _ _) hprefix
      (Nat.le_of_not_lt hlong)
    apply head_missing hmissing
    apply hagain.subset
    rw [hmissing]
    simp
  obtain ⟨rest, hrest⟩ := List.prefix_of_prefix_length_le hprefix (List.prefix_append _ _)
    (Nat.le_of_lt hshort)
  cases rest with
  | nil =>
    rw [← hrest, List.append_nil] at hshort
    cases Nat.lt_irrefl _ hshort
  | cons x rest =>
    use rest.reverse, x
    constructor
    · rw [← List.reverse_inj, ← hrest]
      simp
    · by_contra hfits
      rw [← hrest, List.append_assoc, List.cons_append] at heq
      have hlonger : q.entries ++ [x] <+: q.entries := by
        have hprefix : q.entries ++ [x] <+: q.entries ++ x :: (rest ++ q.entries) := by
          use rest ++ q.entries
          simp
        have hkept := prefix_trim (w := w) (c := q.capacity) hprefix (by
          rw [weightOf_append, weightOf_cons, weightOf_nil]
          omega)
        rwa [heq] at hkept
      have hlength := hlonger.length_le
      rw [List.length_append, List.length_singleton] at hlength
      omega

omit [DecidableEq α] in
/-- An element behind others that do not fit together with it is not left. -/
theorem not_mem_trim {r : List α} (hx : x ∉ l) (hover : c < weightOf w l + w x) :
  x ∉ trim w c (l ++ x :: r)
  := by
  intro hmem
  have hprefix := trim_front (w := w) c (l ++ x :: r)
  have hfits := weightOf_trim_le (w := w) c (l ++ x :: r)
  by_cases hshort : (trim w c (l ++ x :: r)).length ≤ l.length
  · have hl := List.prefix_of_prefix_length_le hprefix (List.prefix_append l (x :: r)) hshort
    apply hx (hl.subset hmem)
  · have hlonger : l ++ [x] <+: trim w c (l ++ x :: r) := by
      apply List.prefix_of_prefix_length_le ⟨r, by simp⟩ hprefix
      rw [List.length_append, List.length_singleton]
      omega
    obtain ⟨rest, hrest⟩ := hlonger
    rw [← hrest] at hfits
    simp only [weightOf_append, weightOf_cons, weightOf_nil] at hfits
    omega

/-- When pushing what is missing, of different elements, gives the queue back: all of them are in
it, or they end with its elements, oldest first, behind one that does not fit beside them. -/
theorem foldl_pushMissing_entries_eq_iff (q : BoundedFifo w) (hl : l.Nodup) :
  (l.foldl pushMissing q).entries = q.entries ↔
    (∀ x ∈ l, x ∈ q.entries) ∨ ∃ before x, l = before ++ x :: q.entries.reverse ∧
      q.capacity < weightOf w q.entries + w x
  := by
  constructor
  · intro heq
    by_cases hnil : q.missing l = []
    · left
      apply missing_eq_nil_iff.mp hnil
    · right
      obtain ⟨before, x, hmissing, hover⟩ := missing_eq_of_entries_eq heq hnil
      have hsubset : l ⊆ q.missing l := by
        intro y hy
        rcases q.mem_or_mem_missing hy with hq | hpushed
        · rw [hmissing]
          simp [hq]
        · apply hpushed
      have hall : q.missing l = l := by
        apply (q.missing_sublist l).eq_of_length_le
        apply (hl.subperm hsubset).length_le
      use before, x
      rw [← hmissing, hall]
      use rfl
  · rintro (hall | ⟨before, x, heq, hover⟩)
    · rw [foldl_pushMissing_entries, missing_eq_nil_iff.mpr hall, List.reverse_nil,
        List.nil_append, trim_of_le q.fits]
    · have hmissing : q.missing l = l := by
        apply missing_eq_self
        rintro pushed y after hsplit
        have hy : y ∉ pushed := by
          rw [hsplit] at hl
          intro hmem
          apply (List.nodup_append.mp hl).2.2 y hmem y List.mem_cons_self rfl
        by_cases hqueue : y ∈ q.entries
        · obtain ⟨newer, older, hentries⟩ := List.append_of_mem hqueue
          have hagain : l = (before ++ x :: older.reverse) ++ y :: newer.reverse := by
            rw [heq, hentries]
            simp
          have hparts := hl
          rw [hagain, List.nodup_append, List.nodup_cons] at hparts
          obtain ⟨-, ⟨hnewer, -⟩, hapart⟩ := hparts
          have holder : y ∉ before ++ x :: older.reverse := by
            intro hmem
            apply hapart y hmem y List.mem_cons_self rfl
          have hafter : y ∉ after := by
            rw [hsplit, List.nodup_append, List.nodup_cons] at hl
            apply hl.2.1.1
          obtain ⟨rfl, -⟩ := (List.append_cons_inj_of_notMem hy hafter).mp
            (hsplit.symm.trans hagain)
          have hlist : (before ++ x :: older.reverse).reverse ++ q.entries
              = (older ++ x :: (before.reverse ++ newer)) ++ y :: older := by
            rw [hentries]
            simp
          rw [hlist]
          apply not_mem_trim
          · simp only [List.mem_append, List.mem_cons, List.mem_reverse] at holder hnewer ⊢
            tauto
          · rw [hentries] at hover
            simp only [weightOf_append, weightOf_cons] at hover ⊢
            omega
        · intro hmem
          rcases List.mem_append.mp ((trim_front _ _).subset hmem) with hpushed | hq
          · apply hy (List.mem_reverse.mp hpushed)
          · apply hqueue hq
      rw [foldl_pushMissing_entries, hmissing, heq]
      simp only [List.reverse_append, List.reverse_cons, List.reverse_reverse, List.append_assoc,
        List.singleton_append]
      apply trim_append_cons _ q.fits hover

end BoundedFifo
