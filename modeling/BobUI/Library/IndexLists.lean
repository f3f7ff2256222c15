import Mathlib.Data.List.Nodup
import Mathlib.Data.List.Perm.Subperm
import Mathlib.Data.List.Range

/-!
# Lists of indexes

Two lists of indexes are inverse to each other where the index at each position of the one is a
position of the other with that index; then they are permutations.  The entries of a list change
places by a function of their positions: two entries swap, or one entry moves.
-/

namespace IndexLists

variable {α β : Type*}

/-! ### Lists that differ by the places of their entries -/

/-- The entry at a position of the second list comes from a position of the first. -/
structure Replaced (σ : ℕ → ℕ) (l l' : List α) : Prop where
  length_eq : l'.length = l.length
  at_eq : ∀ i : ℕ, l'[i]? = l[σ i]?

namespace Replaced

variable {σ τ : ℕ → ℕ} {l l' l'' : List α}

theorem refl (l : List α) :
  Replaced (fun i => i) l l
  := ⟨rfl, fun _ => rfl⟩

theorem trans (h : Replaced σ l l') (h' : Replaced τ l' l'') :
  Replaced (fun i => σ (τ i)) l l''
  := ⟨h'.length_eq.trans h.length_eq, fun i => (h'.at_eq i).trans (h.at_eq (τ i))⟩

theorem congr (h : Replaced σ l l') (heq : ∀ i < l.length, τ i = σ i)
    (hout : ∀ i, l.length ≤ i → l.length ≤ τ i) :
  Replaced τ l l'
  := by
  refine ⟨h.length_eq, fun i => ?_⟩
  rcases Nat.lt_or_ge i l.length with hi | hi
  · rw [h.at_eq, heq i hi]
  · rw [List.getElem?_eq_none (h.length_eq ▸ hi), List.getElem?_eq_none (hout i hi)]

theorem unique (h : Replaced σ l l') (h' : Replaced σ l l'') :
  l' = l''
  := by
  apply List.ext_getElem?
  intro i
  rw [h.at_eq, h'.at_eq]

theorem zip {m m' : List β} (h : Replaced σ l l') (h' : Replaced σ m m') :
  Replaced σ (l.zip m) (l'.zip m')
  := by
  refine ⟨?_, fun i => ?_⟩
  · rw [List.length_zip, List.length_zip, h.length_eq, h'.length_eq]
  · apply Option.ext
    intro x
    rw [List.getElem?_zip_eq_some, List.getElem?_zip_eq_some, h.at_eq, h'.at_eq]

theorem map (f : α → β) (h : Replaced σ l l') :
  Replaced σ (l.map f) (l'.map f)
  := by
  refine ⟨?_, fun i => ?_⟩
  · rw [List.length_map, List.length_map, h.length_eq]
  · rw [List.getElem?_map, List.getElem?_map, h.at_eq]

end Replaced

/-- The place that changes with another one. -/
def swapPlace (i j k : ℕ) : ℕ :=
  if k = i then j else if k = j then i else k

/-- The entries at two positions swap. -/
def swapped (l : List α) (i j : ℕ) : List α :=
  match l[i]?, l[j]? with
  | some a, some b => (l.set i b).set j a
  | _, _ => l

theorem replaced_set {l : List α} {i j : ℕ} {a b : α} (ha : l[i]? = some a)
    (hb : l[j]? = some b) :
  Replaced (swapPlace i j) l ((l.set i b).set j a)
  := by
  obtain ⟨hi, -⟩ := List.getElem?_eq_some_iff.mp ha
  obtain ⟨hj, -⟩ := List.getElem?_eq_some_iff.mp hb
  refine ⟨?_, fun k => ?_⟩
  · rw [List.length_set, List.length_set]
  · rw [List.getElem?_set, List.getElem?_set, List.length_set, swapPlace]
    by_cases hk : j = k
    · rw [if_pos hk, if_pos (hk ▸ hj)]
      by_cases hk' : k = i
      · rw [if_pos hk', ← ha, ← hk', hk]
      · rw [if_neg hk', if_pos hk.symm, ha]
    · rw [if_neg hk]
      by_cases hk' : i = k
      · rw [if_pos hk', if_pos (hk' ▸ hi), if_pos hk'.symm, hb]
      · rw [if_neg hk', if_neg (Ne.symm hk'), if_neg (Ne.symm hk)]

theorem replaced_swapped {l : List α} {i j : ℕ} (hi : i < l.length) (hj : j < l.length) :
  Replaced (swapPlace i j) l (swapped l i j)
  := by
  have ha := List.getElem?_eq_getElem hi
  have hb := List.getElem?_eq_getElem hj
  rw [swapped, ha, hb]
  exact replaced_set ha hb

/-- The place from which the entry at a place comes where one moves. -/
def movePlace (i j k : ℕ) : ℕ :=
  if k = j then i
  else if i ≤ k ∧ k < j then k + 1
  else if j < k ∧ k ≤ i then k - 1
  else k

/-- The entry at a position moves to another one. -/
def moved (l : List α) (i j : ℕ) : List α :=
  match l[i]? with
  | some a => (l.eraseIdx i).insertIdx j a
  | none => l

theorem replaced_moved {l : List α} {i j : ℕ} (hi : i < l.length) (hj : j < l.length) :
  Replaced (movePlace i j) l (moved l i j)
  := by
  have ha := List.getElem?_eq_getElem hi
  have herase := List.length_eraseIdx_of_lt hi
  rw [moved, ha]
  dsimp only
  refine ⟨?_, fun k => ?_⟩
  · rw [List.length_insertIdx_of_le_length (by omega), herase]
    omega
  · rw [List.getElem?_insertIdx, movePlace]
    by_cases hk : k = j
    · rw [if_neg (by omega), if_pos hk, if_pos (by omega), if_pos hk, ha]
    · rw [if_neg hk]
      by_cases hlt : k < j
      · rw [if_pos hlt, List.getElem?_eraseIdx]
        by_cases hki : k < i
        · rw [if_pos hki, if_neg hk, if_neg (by omega), if_neg (by omega)]
        · rw [if_neg hki, if_neg hk, if_pos (by omega)]
      · rw [if_neg hlt, if_neg hk, List.getElem?_eraseIdx]
        by_cases hki : k - 1 < i
        · rw [if_pos hki, if_neg (by omega), if_pos (by omega)]
        · rw [if_neg hki, if_neg (by omega), if_neg (by omega),
            Nat.sub_add_cancel (by omega : 1 ≤ k)]

/-! ### Inverse lists -/

/-- The second list has the position of each index of the first. -/
structure Inverse (l v : List ℕ) : Prop where
  length_eq : v.length = l.length
  at_eq : ∀ i k : ℕ, l[i]? = some k → v[k]? = some i

namespace Inverse

variable {l v : List ℕ}

theorem lt (h : Inverse l v) {i k : ℕ} (hk : l[i]? = some k) :
  k < l.length
  := by
  obtain ⟨hlt, -⟩ := List.getElem?_eq_some_iff.mp (h.at_eq i k hk)
  rwa [h.length_eq] at hlt

theorem inj (h : Inverse l v) {i j k : ℕ} (hi : l[i]? = some k) (hj : l[j]? = some k) :
  i = j
  := by
  have heq := h.at_eq i k hi
  rw [h.at_eq j k hj, Option.some.injEq] at heq
  exact heq.symm

theorem nodup (h : Inverse l v) :
  l.Nodup
  := by
  rw [List.nodup_iff_getElem?_ne_getElem?]
  intro i j hlt hj heq
  have hget := List.getElem?_eq_getElem hj
  rw [hget] at heq
  exact Nat.ne_of_lt hlt (h.inj heq hget)

/-- A list without duplicates is a permutation of a range where it is in the range. -/
theorem perm_of_nodup (hnodup : l.Nodup) (hlt : ∀ k ∈ l, k < l.length) :
  l.Perm (List.range l.length)
  := by
  have hsub : l ⊆ List.range l.length := fun k hk => List.mem_range.mpr (hlt k hk)
  apply (hnodup.subperm hsub).perm_of_length_le
  rw [List.length_range]

theorem perm (h : Inverse l v) :
  l.Perm (List.range l.length)
  := by
  apply perm_of_nodup h.nodup
  intro k hk
  obtain ⟨i, hi⟩ := List.mem_iff_getElem?.mp hk
  exact h.lt hi

theorem symm (h : Inverse l v) :
  Inverse v l
  := by
  refine ⟨h.length_eq.symm, fun k i hi => ?_⟩
  have hk : k ∈ l := by
    rw [h.perm.mem_iff, List.mem_range, ← h.length_eq]
    exact (List.getElem?_eq_some_iff.mp hi).1
  obtain ⟨j, hj⟩ := List.mem_iff_getElem?.mp hk
  have heq := h.at_eq j k hj
  rw [hi, Option.some.injEq] at heq
  rw [heq, hj]

theorem iff (h : Inverse l v) (i k : ℕ) :
  l[i]? = some k ↔ v[k]? = some i
  := ⟨h.at_eq i k, h.symm.at_eq k i⟩

theorem range (n : ℕ) :
  Inverse (List.range n) (List.range n)
  := by
  refine ⟨rfl, fun i k hk => ?_⟩
  obtain ⟨hi, heq⟩ := List.getElem?_eq_some_iff.mp hk
  rw [List.getElem_range] at heq
  rwa [heq] at hk ⊢

/-- Two indexes swap their positions. -/
theorem swap (h : Inverse l v) {i j a b : ℕ} (ha : l[i]? = some a) (hb : l[j]? = some b) :
  Inverse ((l.set i b).set j a) ((v.set b i).set a j)
  := by
  have hl := replaced_set ha hb
  have hv := replaced_set (h.at_eq j b hb) (h.at_eq i a ha)
  refine ⟨?_, fun k c hc => ?_⟩
  · rw [hv.length_eq, hl.length_eq, h.length_eq]
  · rw [hl.at_eq] at hc
    rw [hv.at_eq]
    unfold swapPlace at hc ⊢
    split at hc
    next hk =>
      rw [hb, Option.some.injEq] at hc
      rw [if_pos hc.symm, hk]
      exact h.at_eq i a ha
    next hk =>
      split at hc
      next hk' =>
        rw [ha, Option.some.injEq] at hc
        by_cases hab : a = b
        · rw [← hc, if_pos hab, hk']
          rw [hab] at ha
          exact absurd ((h.inj hb ha).symm ▸ hk') (fun h => hk h)
        · rw [← hc, if_neg hab, if_pos rfl, hk']
          exact h.at_eq j b hb
      next hk' =>
        have hcb : c ≠ b := by
          rintro rfl
          exact hk' (h.inj hc hb)
        have hca : c ≠ a := by
          rintro rfl
          exact hk (h.inj hc ha)
        rw [if_neg hcb, if_neg hca]
        exact h.at_eq k c hc

end Inverse

/-! ### Indexes that come and go -/

/-- An index after others have been inserted. -/
def raise (first count i : ℕ) : ℕ :=
  if first ≤ i then i + count else i

/-- New indexes are inserted at their own positions. -/
def widened (first count : ℕ) (l : List ℕ) : List ℕ :=
  (l.map (raise first count)).take first ++ List.range' first count
    ++ (l.map (raise first count)).drop first

theorem length_widened (first count : ℕ) (l : List ℕ) :
  (widened first count l).length = l.length + count
  := by
  rw [widened, List.length_append, List.length_append, List.length_take, List.length_drop,
    List.length_range', List.length_map]
  omega

theorem getElem?_widened {first count : ℕ} {l : List ℕ} (h : first ≤ l.length) (i : ℕ) :
  (widened first count l)[i]?
    = if i < first then l[i]?.map (raise first count)
      else if i < first + count then some i
      else l[i - count]?.map (raise first count)
  := by
  have htake : ((l.map (raise first count)).take first).length = first := by
    rw [List.length_take, List.length_map, Nat.min_eq_left h]
  rw [widened, List.append_assoc, List.getElem?_append, htake]
  split
  next hi => rw [List.getElem?_take_of_lt hi, List.getElem?_map]
  next hi =>
    rw [List.getElem?_append, List.length_range']
    by_cases hnew : i < first + count
    · rw [if_pos (by omega), if_pos hnew, List.getElem?_range' (by omega)]
      congr 1
      omega
    · rw [if_neg (by omega), if_neg hnew, List.getElem?_drop, List.getElem?_map]
      congr 2
      omega

/-- Where nothing is out of its place, nothing is so with the new indexes. -/
theorem widened_range {first count n : ℕ} (h : first ≤ n) :
  widened first count (List.range n) = List.range (n + count)
  := by
  apply List.ext_getElem?
  intro i
  rw [getElem?_widened (by rwa [List.length_range])]
  rcases Nat.lt_or_ge i (n + count) with hi | hi
  · rw [List.getElem?_range hi]
    split
    next hfirst =>
      rw [List.getElem?_range (by omega), Option.map_some, raise, if_neg (by omega)]
    next hfirst =>
      split
      next => rfl
      next =>
        rw [List.getElem?_range (by omega), Option.map_some, raise, if_pos (by omega)]
        congr 1
        omega
  · have hold : (List.range n)[i - count]? = none :=
      List.getElem?_eq_none (by rw [List.length_range]; omega)
    have hnew : (List.range (n + count))[i]? = none :=
      List.getElem?_eq_none (by rwa [List.length_range])
    rw [if_neg (by omega), if_neg (by omega), hold, hnew]
    rfl

theorem Inverse.widen {l v : List ℕ} (h : Inverse l v) {first count : ℕ}
    (hfirst : first ≤ l.length) :
  Inverse (widened first count l) (widened first count v)
  := by
  refine ⟨by rw [length_widened, length_widened, h.length_eq], fun i k hk => ?_⟩
  rw [getElem?_widened hfirst] at hk
  rw [getElem?_widened (h.length_eq ▸ hfirst)]
  -- An old index at an old position stays where it is, but for the new ones before it.
  have hold : ∀ j m, l[j]? = some m → raise first count m = k → raise first count j = i →
      (if k < first then v[k]?.map (raise first count) else if k < first + count then some k
        else v[k - count]?.map (raise first count)) = some i := by
    intro j m hm hraise hplace
    have hv := h.at_eq j m hm
    rw [raise] at hraise
    split at hraise
    next hge =>
      rw [if_neg (by omega), if_neg (by omega), show k - count = m by omega, hv, Option.map_some,
        hplace]
    next hlt => rw [if_pos (by omega), ← hraise, hv, Option.map_some, hplace]
  split at hk
  next hi =>
    obtain ⟨m, hm, hraise⟩ := Option.map_eq_some_iff.mp hk
    exact hold i m hm hraise (if_neg (by omega))
  next hi =>
    split at hk
    next hnew =>
      cases hk
      rw [if_neg hi, if_pos hnew]
    next hge =>
      obtain ⟨m, hm, hraise⟩ := Option.map_eq_some_iff.mp hk
      apply hold (i - count) m hm hraise
      rw [raise, if_pos (by omega)]
      omega

/-- An index after another one has been removed. -/
def lower (k i : ℕ) : ℕ :=
  if k < i then i - 1 else i

/-- An index is removed with its position. -/
theorem Inverse.erase {l v : List ℕ} (h : Inverse l v) {i k : ℕ} (hk : l[i]? = some k) :
  Inverse ((l.map (lower k)).eraseIdx i) ((v.map (lower i)).eraseIdx k)
  := by
  have hi := (List.getElem?_eq_some_iff.mp hk).1
  have hlt := h.lt hk
  constructor
  · rw [List.length_eraseIdx_of_lt (by rwa [List.length_map, h.length_eq]),
      List.length_eraseIdx_of_lt (by rwa [List.length_map]), List.length_map, List.length_map,
      h.length_eq]
  · intro j m hm
    rw [List.getElem?_eraseIdx, List.getElem?_map, List.getElem?_map] at hm
    rw [List.getElem?_eraseIdx, List.getElem?_map, List.getElem?_map]
    have hold : ∀ p q, l[p]? = some q → p ≠ i → lower i p = j → lower k q = m →
        (if m < k then v[m]?.map (lower i) else v[m + 1]?.map (lower i)) = some j := by
      intro p q hq hp hj hm
      have hv := h.at_eq p q hq
      have hne : q ≠ k := by
        rintro rfl
        exact hp (h.inj hq hk)
      rw [lower] at hm
      split at hm
      next hgt => rw [if_neg (by omega), show m + 1 = q by omega, hv, Option.map_some, hj]
      next hle => rw [if_pos (by omega), ← hm, hv, Option.map_some, hj]
    split at hm
    next hji =>
      obtain ⟨q, hq, hlow⟩ := Option.map_eq_some_iff.mp hm
      exact hold j q hq (by omega) (if_neg (by omega)) hlow
    next hji =>
      obtain ⟨q, hq, hlow⟩ := Option.map_eq_some_iff.mp hm
      apply hold (j + 1) q hq (by omega) _ hlow
      rw [lower, if_pos (by omega)]
      omega

/-- The entries that a predicate drops lie together. -/
theorem filter_eq_of_range {l : List α} {p : α → Bool} {a b : ℕ} (hle : a ≤ b)
    (h : ∀ (i : ℕ) (x : α), l[i]? = some x → (p x = false ↔ a ≤ i ∧ i < b)) :
  l.filter p = l.take a ++ l.drop b
  := by
  have hsplit : l = l.take a ++ ((l.drop a).take (b - a) ++ l.drop b) := by
    have hdrop := List.take_append_drop (b - a) (l.drop a)
    rw [List.drop_drop, Nat.add_sub_cancel' hle] at hdrop
    rw [hdrop, List.take_append_drop]
  conv =>
    lhs
    rw [hsplit]
  have hfront : (l.take a).filter p = l.take a := by
    rw [List.filter_eq_self]
    intro x hx
    obtain ⟨i, hi⟩ := List.mem_iff_getElem?.mp hx
    rw [List.getElem?_take] at hi
    split at hi
    next hlt =>
      have hiff := h i x hi
      rw [← Bool.not_eq_false, hiff]
      omega
    next => cases hi
  have hmiddle : ((l.drop a).take (b - a)).filter p = [] := by
    rw [List.filter_eq_nil_iff]
    intro x hx
    obtain ⟨i, hi⟩ := List.mem_iff_getElem?.mp hx
    rw [List.getElem?_take] at hi
    split at hi
    next hlt =>
      rw [List.getElem?_drop] at hi
      rw [Bool.not_eq_true, h (a + i) x hi]
      omega
    next => cases hi
  have hback : (l.drop b).filter p = l.drop b := by
    rw [List.filter_eq_self]
    intro x hx
    obtain ⟨i, hi⟩ := List.mem_iff_getElem?.mp hx
    rw [List.getElem?_drop] at hi
    rw [← Bool.not_eq_false, h (b + i) x hi]
    omega
  rw [List.filter_append, List.filter_append, hfront, hmiddle, hback, List.nil_append]

end IndexLists
