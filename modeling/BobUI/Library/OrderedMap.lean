import Mathlib.Data.List.Sort
import Mathlib.Order.Defs.LinearOrder

/-!
# Ordered maps

A map from keys in a linear order to values, with a value for finitely many keys, is the list of
its entries in the order of the keys.  The operations are those of a search tree: looking up,
inserting and erasing a key, and finding the first key from a given one on.  The laws of the
operations are stated by `get?`.
-/

/-- The entries of a map, in the order of their keys. -/
structure OrderedMap (K V : Type) [LinearOrder K] where
  entries : List (K × V)
  sorted : entries.Pairwise fun a b => a.1 < b.1

namespace OrderedMap

variable {K V W : Type} [LinearOrder K]

def empty : OrderedMap K V where
  entries := []
  sorted := List.Pairwise.nil

def isEmpty (m : OrderedMap K V) : Bool :=
  m.entries.isEmpty

def keys (m : OrderedMap K V) : List K :=
  m.entries.map Prod.fst

def get? (m : OrderedMap K V) (k : K) : Option V :=
  (m.entries.find? fun e => e.1 = k).map Prod.snd

/-- The map with the value `v` at `k`, which replaces the one that was there. -/
def insert (m : OrderedMap K V) (k : K) (v : V) : OrderedMap K V where
  entries := m.entries.filter (fun e => e.1 < k) ++ (k, v) :: m.entries.filter fun e => k < e.1
  sorted := by
    rw [List.pairwise_append, List.pairwise_cons]
    refine ⟨m.sorted.filter _, ⟨?_, m.sorted.filter _⟩, ?_⟩
    · intro e h_e
      exact of_decide_eq_true (List.mem_filter.mp h_e).2
    · intro a h_a b h_b
      have h_ak : a.1 < k := of_decide_eq_true (List.mem_filter.mp h_a).2
      rcases List.mem_cons.mp h_b with rfl | h_b
      · exact h_ak
      · exact lt_trans h_ak (of_decide_eq_true (List.mem_filter.mp h_b).2)

def erase (m : OrderedMap K V) (k : K) : OrderedMap K V where
  entries := m.entries.filter fun e => e.1 ≠ k
  sorted := m.sorted.filter _

/-- The first key that is not below `k`. -/
def lowerBound (m : OrderedMap K V) (k : K) : Option K :=
  m.keys.find? fun k' => k ≤ k'

/-- The map with the values changed. -/
def mapValues (f : K → V → W) (m : OrderedMap K V) : OrderedMap K W where
  entries := m.entries.map fun e => (e.1, f e.1 e.2)
  sorted := List.pairwise_map.mpr m.sorted

/-- The map with the value at `k` changed, if there is one. -/
def modify (m : OrderedMap K V) (k : K) (f : V → V) : OrderedMap K V :=
  match m.get? k with
  | some v => m.insert k (f v)
  | none => m

/-- The keys from `k` down to the first one. -/
def keysDown (m : OrderedMap K V) (k : K) : List K :=
  (m.keys.filter (· ≤ k)).reverse

/-! ### Entries -/

theorem eq_of_key_eq (m : OrderedMap K V) {a b : K × V} (ha : a ∈ m.entries) (hb : b ∈ m.entries)
    (h : a.1 = b.1) :
  a = b
  := by
  obtain ⟨i, hi, rfl⟩ := List.getElem_of_mem ha
  obtain ⟨j, hj, rfl⟩ := List.getElem_of_mem hb
  have hsorted := List.pairwise_iff_getElem.mp m.sorted
  rcases Nat.lt_trichotomy i j with hlt | rfl | hgt
  · exact absurd h (ne_of_lt (hsorted i j hi hj hlt))
  · rfl
  · exact absurd h (ne_of_gt (hsorted j i hj hi hgt))

variable {m : OrderedMap K V} {k : K}

theorem get?_eq_some_iff {v : V} :
  m.get? k = some v ↔ (k, v) ∈ m.entries
  := by
  unfold get?
  constructor
  · intro h
    obtain ⟨e, hfind, rfl⟩ := Option.map_eq_some_iff.mp h
    have hkey := List.find?_some hfind
    rw [decide_eq_true_eq] at hkey
    rw [← hkey]
    exact List.mem_of_find?_eq_some hfind
  · intro h
    cases hfind : m.entries.find? fun e => e.1 = k with
    | none =>
      have hnot := List.find?_eq_none.mp hfind (k, v) h
      exact absurd (decide_eq_true rfl) hnot
    | some e =>
      have hkey := List.find?_some hfind
      rw [decide_eq_true_eq] at hkey
      rw [m.eq_of_key_eq (List.mem_of_find?_eq_some hfind) h hkey]
      rfl

theorem mem_keys_iff :
  k ∈ m.keys ↔ ∃ v, m.get? k = some v
  := by
  simp only [keys, List.mem_map, get?_eq_some_iff, Prod.exists, exists_and_right, exists_eq_right]

theorem get?_eq_none_iff :
  m.get? k = none ↔ k ∉ m.keys
  := by
  rw [mem_keys_iff, Option.eq_none_iff_forall_ne_some, not_exists]

theorem sorted_keys (m : OrderedMap K V) :
  m.keys.Pairwise (· < ·)
  := List.pairwise_map.mpr m.sorted

theorem nodup_keys (m : OrderedMap K V) :
  m.keys.Nodup
  := m.sorted_keys.imp ne_of_lt

/-- Maps with the same values are the same. -/
theorem ext_get? {m' : OrderedMap K V} (h : ∀ k, m.get? k = m'.get? k) :
  m = m'
  := by
  obtain ⟨entries, sorted⟩ := m
  obtain ⟨entries', sorted'⟩ := m'
  congr 1
  have hmem : ∀ e : K × V, e ∈ entries ↔ e ∈ entries' := by
    rintro ⟨k, v⟩
    have hk := congrArg (fun o => o = some v) (h k)
    rw [eq_iff_iff, get?_eq_some_iff, get?_eq_some_iff] at hk
    exact hk
  have hperm := (List.perm_ext_iff_of_nodup
    (sorted.imp fun hlt heq => ne_of_lt hlt (congrArg Prod.fst heq))
    (sorted'.imp fun hlt heq => ne_of_lt hlt (congrArg Prod.fst heq))).mpr hmem
  exact hperm.eq_of_pairwise (fun a b _ _ hab hba => absurd hab (lt_asymm hba)) sorted sorted'

/-! ### The laws of the operations -/

@[simp]
theorem get?_empty (k : K) :
  (empty : OrderedMap K V).get? k = none
  := rfl

theorem isEmpty_iff (m : OrderedMap K V) :
  m.isEmpty = true ↔ ∀ k, m.get? k = none
  := by
  rw [isEmpty, List.isEmpty_iff]
  constructor
  · intro h k
    rw [get?, h]
    rfl
  · intro h
    rw [List.eq_nil_iff_forall_not_mem]
    rintro ⟨k, v⟩ hmem
    rw [← get?_eq_some_iff, h k] at hmem
    cases hmem

theorem get?_insert (m : OrderedMap K V) (k : K) (v : V) (k' : K) :
  (m.insert k v).get? k' = if k' = k then some v else m.get? k'
  := by
  apply Option.ext
  intro w
  rw [get?_eq_some_iff, insert, List.mem_append, List.mem_cons, List.mem_filter, List.mem_filter,
    decide_eq_true_eq, decide_eq_true_eq]
  split
  next h =>
    subst h
    simp only [lt_irrefl, and_false, false_or, or_false, Prod.mk.injEq, true_and, Option.some.injEq]
    exact eq_comm
  next h =>
    rw [get?_eq_some_iff]
    constructor
    · rintro (⟨hmem, -⟩ | heq | ⟨hmem, -⟩)
      · exact hmem
      · exact absurd (congrArg Prod.fst heq) h
      · exact hmem
    · intro hmem
      rcases lt_or_gt_of_ne h with hlt | hgt
      · exact .inl ⟨hmem, hlt⟩
      · exact .inr (.inr ⟨hmem, hgt⟩)

theorem get?_erase (m : OrderedMap K V) (k k' : K) :
  (m.erase k).get? k' = if k' = k then none else m.get? k'
  := by
  apply Option.ext
  intro w
  rw [get?_eq_some_iff, erase, List.mem_filter, decide_eq_true_eq, ← get?_eq_some_iff]
  split
  next h => exact iff_of_false (fun hboth => hboth.2 h) (fun hnone => nomatch hnone)
  next h => exact and_iff_left h

theorem get?_mapValues (f : K → V → W) (m : OrderedMap K V) (k : K) :
  (m.mapValues f).get? k = (m.get? k).map (f k)
  := by
  apply Option.ext
  intro w
  rw [get?_eq_some_iff, mapValues, List.mem_map, Option.map_eq_some_iff]
  constructor
  · rintro ⟨⟨k', v⟩, hmem, heq⟩
    cases heq
    exact ⟨v, get?_eq_some_iff.mpr hmem, rfl⟩
  · rintro ⟨v, hget, rfl⟩
    exact ⟨(k, v), get?_eq_some_iff.mp hget, rfl⟩

theorem get?_modify (m : OrderedMap K V) (k : K) (f : V → V) (k' : K) :
  (m.modify k f).get? k' = if k' = k then (m.get? k).map f else m.get? k'
  := by
  unfold modify
  cases h : m.get? k with
  | some v => exact get?_insert m k (f v) k'
  | none =>
    dsimp only
    split
    next hk => rw [hk, h]; rfl
    next => rfl

theorem entries_insert {before after : List (K × V)} (h : m.entries = before ++ after)
    (hbefore : ∀ e ∈ before, e.1 < k) (hafter : ∀ e ∈ after, k < e.1) (v : V) :
  (m.insert k v).entries = before ++ (k, v) :: after
  := by
  have hbelow : m.entries.filter (fun e => decide (e.1 < k)) = before := by
    rw [h, List.filter_append, List.filter_eq_self.mpr fun e he => decide_eq_true (hbefore e he),
      List.filter_eq_nil_iff.mpr fun e he => by
        rw [decide_eq_true_eq]
        exact not_lt_of_gt (hafter e he), List.append_nil]
  have habove : m.entries.filter (fun e => decide (k < e.1)) = after := by
    rw [h, List.filter_append, List.filter_eq_self.mpr fun e he => decide_eq_true (hafter e he),
      List.filter_eq_nil_iff.mpr fun e he => by
        rw [decide_eq_true_eq]
        exact not_lt_of_gt (hbefore e he), List.nil_append]
  unfold insert
  dsimp only
  rw [hbelow, habove]

/-! ### Walking the keys -/

theorem lowerBound_eq_some {k' : K} (h : m.lowerBound k = some k') :
  k' ∈ m.keys ∧ k ≤ k' ∧ ∀ l ∈ m.keys, k ≤ l → k' ≤ l
  := by
  obtain ⟨hle, before, after, hkeys, hbefore⟩ := List.find?_eq_some_iff_append.mp h
  have hsorted := m.sorted_keys
  rw [hkeys, List.pairwise_append, List.pairwise_cons] at hsorted
  refine ⟨List.mem_of_find?_eq_some h, of_decide_eq_true hle, fun l hl hkl => ?_⟩
  rw [hkeys, List.mem_append, List.mem_cons] at hl
  rcases hl with hl | rfl | hl
  · have hnot := hbefore l hl
    rw [Bool.not_eq_true', decide_eq_false_iff_not] at hnot
    exact absurd hkl hnot
  · exact le_refl l
  · exact le_of_lt (hsorted.2.1.1 l hl)

theorem lowerBound_eq_none :
  m.lowerBound k = none ↔ ∀ l ∈ m.keys, l < k
  := by
  rw [lowerBound, List.find?_eq_none]
  simp only [decide_eq_true_eq, not_le]

theorem mem_keysDown {l : K} :
  l ∈ m.keysDown k ↔ l ∈ m.keys ∧ l ≤ k
  := by
  rw [keysDown, List.mem_reverse, List.mem_filter, decide_eq_true_eq]

theorem sorted_keysDown (m : OrderedMap K V) (k : K) :
  (m.keysDown k).Pairwise (· > ·)
  := by
  rw [keysDown, List.pairwise_reverse]
  exact m.sorted_keys.filter _

/-! ### Inserting many entries -/

variable {E : Type} (key : E → K) (value : E → V)

/-- Entries with one key and one value each, inserted one after the other. -/
theorem get?_foldl_insert (es : List E) (m : OrderedMap K V)
    (h : ∀ a ∈ es, ∀ b ∈ es, key a = key b → value a = value b) (k : K) (v : V) :
  (es.foldl (fun m e => m.insert (key e) (value e)) m).get? k = some v
    ↔ (∃ e ∈ es, key e = k ∧ value e = v) ∨ (∀ e ∈ es, key e ≠ k) ∧ m.get? k = some v
  := by
  induction es generalizing m with
  | nil => simp only [List.foldl_nil, List.not_mem_nil, false_and, exists_false, false_or,
      false_implies, implies_true, true_and]
  | cons e es ih =>
    have hes : ∀ a ∈ es, ∀ b ∈ es, key a = key b → value a = value b := fun a ha b hb =>
      h a (List.mem_cons_of_mem _ ha) b (List.mem_cons_of_mem _ hb)
    rw [List.foldl_cons, ih _ hes, get?_insert, List.exists_mem_cons_iff, List.forall_mem_cons]
    by_cases hkey : k = key e
    · subst hkey
      rw [if_pos rfl, Option.some.injEq]
      constructor
      · rintro (hlater | ⟨-, hvalue⟩)
        · exact .inl (.inr hlater)
        · exact .inl (.inl ⟨rfl, hvalue⟩)
      · rintro ((⟨-, hvalue⟩ | hlater) | ⟨⟨hne, -⟩, -⟩)
        · by_cases hall : ∀ a ∈ es, key a ≠ key e
          · exact .inr ⟨hall, hvalue⟩
          · push Not at hall
            obtain ⟨a, ha, heq⟩ := hall
            have hsame := h a (List.mem_cons_of_mem _ ha) e List.mem_cons_self heq
            exact .inl ⟨a, ha, heq, hsame.trans hvalue⟩
        · exact .inl hlater
        · exact absurd rfl hne
    · rw [if_neg hkey]
      constructor
      · rintro (hlater | ⟨hnone, hget⟩)
        · exact .inl (.inr hlater)
        · exact .inr ⟨⟨Ne.symm hkey, hnone⟩, hget⟩
      · rintro ((⟨heq, -⟩ | hlater) | ⟨⟨-, hnone⟩, hget⟩)
        · exact absurd heq.symm hkey
        · exact .inl hlater
        · exact .inr ⟨hnone, hget⟩

/-- Where the entries were inserted, every key is one of theirs or was there before. -/
theorem mem_keys_foldl_insert {es : List E}
    (h : k ∈ (es.foldl (fun m e => m.insert (key e) (value e)) m).keys) :
  (∃ e ∈ es, key e = k) ∨ k ∈ m.keys
  := by
  induction es generalizing m with
  | nil => exact .inr h
  | cons e es ih =>
    rcases ih h with ⟨e', he', hk⟩ | hm
    · exact .inl ⟨e', List.mem_cons_of_mem _ he', hk⟩
    · obtain ⟨v, hv⟩ := mem_keys_iff.mp hm
      rw [get?_insert] at hv
      split at hv
      next hk => exact .inl ⟨e, List.mem_cons_self, hk.symm⟩
      next => exact .inr (mem_keys_iff.mpr ⟨v, hv⟩)

end OrderedMap
