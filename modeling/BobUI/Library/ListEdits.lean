import Mathlib.Data.List.Perm.Basic
import Mathlib.Data.List.TakeDrop
import Mathlib.Tactic.Common
import Mathlib.Tactic.SplitIfs

/-!
# Lists that are edited from the back

Intervals of a list are cut out, or blocks are put into it, one after another from the back to the
front.  The positions can then be those of the list before any of the edits.
-/

namespace ListEdits

variable {α : Type*}

/-! ### Cutting -/

/-- The list without the entries from `first` to `last`. -/
def cut (l : List α) (first last : ℕ) : List α :=
  l.take first ++ l.drop (last + 1)

def cutAll (intervals : List (ℕ × ℕ)) (l : List α) : List α :=
  intervals.foldr (fun interval l => cut l interval.1 interval.2) l

/-- An interval of a list. -/
theorem exists_block {l : List α} {a b : ℕ} (h : a ≤ b) (hb : b < l.length) :
  ∃ p q r, l = p ++ (q ++ r) ∧ p.length = a ∧ p.length + q.length = b + 1
  := by
  use l.take a, (l.drop a).take (b + 1 - a), (l.drop a).drop (b + 1 - a)
  constructor
  · rw [List.take_append_drop, List.take_append_drop]
  · rw [List.length_take, List.length_take, List.length_drop]
    omega

theorem cut_append {p q r : List α} {a b : ℕ} (hp : p.length = a)
    (hq : p.length + q.length = b + 1) :
  cut (p ++ (q ++ r)) a b = p ++ r
  := by
  rw [cut, ← hp, ← hq, List.take_left, ← List.append_assoc, ← List.length_append, List.drop_left]

/-- The entries whose positions satisfy a predicate, where the list begins at `k`. -/
def pick (P : ℕ → Bool) (k : ℕ) : List α → List α
  | [] => []
  | a :: l => if P k then a :: pick P (k + 1) l else pick P (k + 1) l

variable {P Q : ℕ → Bool} {k : ℕ} {l l' : List α} {intervals : List (ℕ × ℕ)}

theorem pick_append :
  pick P k (l ++ l') = pick P k l ++ pick P (k + l.length) l'
  := by
  induction l generalizing k with
  | nil => rfl
  | cons a l ih =>
    rw [List.cons_append, pick, pick, ih, List.length_cons, Nat.add_right_comm, Nat.add_assoc]
    split_ifs
    · rfl
    · rfl

theorem pick_congr (h : ∀ i, k ≤ i → i < k + l.length → P i = Q i) :
  pick P k l = pick Q k l
  := by
  induction l generalizing k with
  | nil => rfl
  | cons a l ih =>
    rw [List.length_cons] at h
    rw [pick, pick, h k (Nat.le_refl k) (by omega), ih]
    intro i hlow hhigh
    apply h i (by omega) (by omega)

theorem pick_true :
  pick (fun _ => true) k l = l
  := by
  induction l generalizing k with
  | nil => rfl
  | cons a l ih => rw [pick, if_pos rfl, ih]

theorem pick_false :
  pick (fun _ => false) k l = []
  := by
  induction l generalizing k with
  | nil => rfl
  | cons a l ih => rw [pick, if_neg Bool.false_ne_true, ih]

/-- The entries at the positions are those that satisfy a predicate themselves. -/
theorem pick_eq_filter {p : α → Bool} (h : ∀ i a, l[i]? = some a → P (k + i) = p a) :
  pick P k l = l.filter p
  := by
  induction l generalizing k with
  | nil => rfl
  | cons a l ih =>
    have hrest := ih (k := k + 1) fun i b hb => by
      rw [Nat.add_right_comm, Nat.add_assoc]
      exact h (i + 1) b hb
    have hfirst := h 0 a rfl
    rw [Nat.add_zero] at hfirst
    rw [pick, List.filter_cons, hrest, hfirst]

/-- Intervals in a list of length `n` that follow each other. -/
structure Ascending (intervals : List (ℕ × ℕ)) (n : ℕ) : Prop where
  le : ∀ interval ∈ intervals, interval.1 ≤ interval.2
  lt : ∀ interval ∈ intervals, interval.2 < n
  pairwise : intervals.Pairwise fun a b => a.2 < b.1

/-- A position outside of the intervals. -/
def outside (intervals : List (ℕ × ℕ)) (i : ℕ) : Bool :=
  intervals.all fun interval => i < interval.1 || interval.2 < i

theorem outside_eq_true_iff {i : ℕ} :
  outside intervals i ↔ ∀ interval ∈ intervals, i < interval.1 ∨ interval.2 < i
  := by
  simp only [outside, List.all_eq_true, Bool.or_eq_true, decide_eq_true_iff]

theorem Ascending.tail {interval : ℕ × ℕ} {n : ℕ} (h : Ascending (interval :: intervals) n) :
  Ascending intervals n
  where
  le a ha := h.le a (List.mem_cons_of_mem _ ha)
  lt a ha := h.lt a (List.mem_cons_of_mem _ ha)
  pairwise := h.pairwise.of_cons

/-- The entries in front of the intervals stay. -/
theorem cutAll_take (h : ∀ interval ∈ intervals, k ≤ interval.1) (hk : k ≤ l.length) :
  (cutAll intervals l).take k = l.take k
  := by
  induction intervals with
  | nil => rfl
  | cons interval intervals ih =>
    have hrest := ih fun a ha => h a (List.mem_cons_of_mem _ ha)
    have hlength : k ≤ (cutAll intervals l).length := by
      have htake := congrArg List.length hrest
      rw [List.length_take, List.length_take] at htake
      omega
    have hfirst := h interval List.mem_cons_self
    change (cut (cutAll intervals l) interval.1 interval.2).take k = l.take k
    rw [cut, List.take_append_of_le_length, List.take_take, Nat.min_eq_left hfirst, hrest]
    rw [List.length_take]
    omega

theorem cutAll_eq_pick (h : Ascending intervals l.length) :
  cutAll intervals l = pick (outside intervals) 0 l
  := by
  induction intervals with
  | nil => exact pick_true.symm
  | cons interval intervals ih =>
    obtain ⟨a, b⟩ := interval
    have hle := h.le (a, b) List.mem_cons_self
    have hlt := h.lt (a, b) List.mem_cons_self
    have hbehind := (List.pairwise_cons.mp h.pairwise).1
    dsimp only at hle hlt hbehind
    change cut (cutAll intervals l) a b = _
    rw [ih h.tail]
    obtain ⟨p, q, r, rfl, hp, hq⟩ := exists_block hle hlt
    have houtside {i : ℕ} (hi : i ≤ b) : outside intervals i = true := by
      rw [outside_eq_true_iff]
      intro interval hinterval
      have hfirst := hbehind interval hinterval
      omega
    have hin {i : ℕ} (hlow : a ≤ i) (hhigh : i ≤ b) :
        outside ((a, b) :: intervals) i = false := by
      rw [← Bool.not_eq_true, outside_eq_true_iff, List.forall_mem_cons]
      omega
    have hfront {i : ℕ} (hi : i < a) : outside ((a, b) :: intervals) i = true := by
      rw [outside_eq_true_iff, List.forall_mem_cons]
      exact ⟨Or.inl hi, outside_eq_true_iff.mp (houtside (by omega))⟩
    have hback {i : ℕ} (hi : b < i) :
        outside ((a, b) :: intervals) i = outside intervals i := by
      rw [outside, List.all_cons, decide_eq_true hi, Bool.or_true, Bool.true_and, outside]
    simp only [pick_append, Nat.zero_add]
    rw [pick_congr (P := outside intervals) (Q := fun _ => true) (l := p), pick_true,
      pick_congr (P := outside intervals) (Q := fun _ => true) (l := q), pick_true,
      cut_append hp hq,
      pick_congr (P := outside ((a, b) :: intervals)) (Q := fun _ => true) (l := p), pick_true,
      pick_congr (P := outside ((a, b) :: intervals)) (Q := fun _ => false) (l := q), pick_false,
      pick_congr (P := outside ((a, b) :: intervals)) (Q := outside intervals) (l := r)]
    · rfl
    all_goals intro i hlow hhigh
    · exact hback (by omega)
    · exact hin (by omega) (by omega)
    · exact hfront (by omega)
    · exact houtside (by omega)
    · exact houtside (by omega)

/-! ### Inserting -/

/-- The list with a block at a position. -/
def splice (l : List α) (i : ℕ) (block : List α) : List α :=
  l.take i ++ block ++ l.drop i

def spliceAll (blocks : List (ℕ × List α)) (l : List α) : List α :=
  blocks.foldr (fun block l => splice l block.1 block.2) l

variable {blocks : List (ℕ × List α)}

theorem splice_perm {i : ℕ} {block : List α} :
  (splice l i block).Perm (block ++ l)
  := by
  rw [splice]
  apply (List.perm_append_comm.append_right _).trans
  rw [List.append_assoc, List.take_append_drop]

theorem sublist_splice {i : ℕ} {block : List α} :
  l.Sublist (splice l i block)
  := by
  rw [splice]
  nth_rewrite 1 [← List.take_append_drop i l]
  apply (List.sublist_append_left _ _).append (List.Sublist.refl _)

theorem spliceAll_perm :
  (spliceAll blocks l).Perm (blocks.flatMap Prod.snd ++ l)
  := by
  induction blocks with
  | nil => exact List.Perm.refl l
  | cons block blocks ih =>
    rw [List.flatMap_cons, List.append_assoc]
    apply splice_perm.trans (ih.append_left _)

theorem sublist_spliceAll :
  l.Sublist (spliceAll blocks l)
  := by
  induction blocks with
  | nil => exact List.Sublist.refl l
  | cons block blocks ih => exact ih.trans sublist_splice

end ListEdits
