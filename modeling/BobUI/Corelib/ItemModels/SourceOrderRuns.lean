import BobUI.Corelib.ItemModels.SourceOrder
import Mathlib.Data.List.Induction

/-!
# Runs of a proxy without a sort column

The rows of a source parent are accepted by the filter or not; rows are inserted and the filter
changes.  The proxy shows the accepted rows in the order of a full sort as long as no step adds rows
to others in descending order.
-/

open QSortFilterProxyModelPrivate ListEdits

/-- A parent of the source: whether the filter accepts its rows, and the mapping of its rows if
there is one. -/
structure SourceParent where
  accepted : List Bool
  mapping : Option Mapping

/-- What happens to a parent: a view asks for the mapping, rows are inserted of which the filter
accepts some, or the filter changes. -/
inductive SourceChange where
  | mapped
  | rowsInserted (start : ℕ) (accepted : List Bool)
  | filterChanged (accepts : ℕ → Bool)

namespace SourceParent

/-- The filter. -/
def accepts (accepted : List Bool) (row : ℕ) : Bool :=
  accepted.getD row false

def acceptedRows (accepted : List Bool) : List ℕ :=
  (List.range accepted.length).filter (accepts accepted)

/-- A mapping is created when rows are about to be inserted. -/
def step (d : QSortFilterProxyModelPrivate) (s : SourceParent) : SourceChange → SourceParent
  | .mapped =>
    { s with
      mapping := some (s.mapping.getD (d.createMapping (accepts s.accepted) s.accepted.length)) }
  | .rowsInserted start new =>
    let m := s.mapping.getD (d.createMapping (accepts s.accepted) s.accepted.length)
    let accepted := s.accepted.take start ++ new ++ s.accepted.drop start
    ⟨accepted, d.sourceRowsInserted (accepts accepted) m start new.length⟩
  | .filterChanged f =>
    ⟨(List.range s.accepted.length).map f, s.mapping.map (d.handleFilterChanged f)⟩

/-- The state after some changes, from a parent that is not mapped. -/
def run (d : QSortFilterProxyModelPrivate) (accepted : List Bool) (changes : List SourceChange) :
    SourceParent :=
  changes.foldl (step d) ⟨accepted, none⟩

/-- The proxy has the accepted rows in the order of a full sort. -/
def InSourceOrder (d : QSortFilterProxyModelPrivate) (s : SourceParent) : Prop :=
  ∀ m ∈ s.mapping, m.proxyToSource = d.sortSourceRows (acceptedRows s.accepted)

/-- A change that adds rows to others in descending order. -/
def Misplaces (d : QSortFilterProxyModelPrivate) (s : SourceParent) (change : SourceChange) :
    Prop :=
  d.sortOrder = .descendingOrder ∧
    match change with
    | .mapped => False
    | .rowsInserted start new => start ≤ s.accepted.length ∧ true ∈ s.accepted ∧ true ∈ new
    | .filterChanged f => s.mapping.isSome ∧ (∃ i : ℕ, s.accepted[i]? = some true ∧ f i)
      ∧ ∃ i : ℕ, s.accepted[i]? = some false ∧ f i

/-- The mapping has the accepted rows, in some order. -/
structure Faithful (accepted : List Bool) (m : Mapping) : Prop where
  valid : m.Valid
  length : m.sourceToProxy.length = accepted.length
  mem : ∀ i : ℕ, i ∈ m.proxyToSource ↔ accepted[i]? = some true

variable {d : QSortFilterProxyModelPrivate} {s : SourceParent} {m : Mapping}
  {accepted new : List Bool} {i start : ℕ} {f : ℕ → Bool} {l : List ℕ}

theorem accepts_iff :
  accepts accepted i ↔ accepted[i]? = some true
  := by
  rw [accepts, List.getD_eq_getElem?_getD]
  cases accepted[i]? with
  | none => simp
  | some b => simp

theorem mem_acceptedRows :
  i ∈ acceptedRows accepted ↔ accepted[i]? = some true
  := by
  rw [acceptedRows, List.mem_filter, accepts_iff, List.mem_range]
  constructor
  · exact And.right
  · intro hi
    exact ⟨(List.getElem?_eq_some_iff.mp hi).1, hi⟩

theorem nodup_acceptedRows :
  (acceptedRows accepted).Nodup
  := List.nodup_range.filter _

theorem pairwise_stableSort {lessThan : ℕ → ℕ → Bool}
    (htotal : ∀ a b, lessThan b a = false ∨ lessThan a b = false)
    (htrans : ∀ a b c, lessThan b a = false → lessThan c b = false → lessThan c a = false) :
  (stableSort lessThan l).Pairwise fun a b => lessThan b a = false
  := by
  have : Std.Total fun a b => lessThan b a = false := ⟨htotal⟩
  have : IsTrans ℕ fun a b => lessThan b a = false := ⟨htrans⟩
  apply List.pairwise_insertionSort

/-- A full sort without a sort column. -/
theorem pairwise_sortSourceRows (hd : d.sourceSortColumn = -1) (h : l.Nodup) :
  (d.sortSourceRows l).Pairwise (Mapping.Follows d.sortOrder)
  := by
  have hperm : (d.sortSourceRows l).Perm l := Mapping.sortSourceRows_perm
  have hnodup := hperm.nodup_iff.mpr h
  rw [sortSourceRows, hd, if_neg (by decide)] at hnodup ⊢
  cases horder : d.sortOrder with
  | ascendingOrder =>
    rw [horder] at hnodup
    have hsorted : (stableSort (fun a b => a < b) l).Pairwise
        fun a b => decide (b < a) = false := by
      apply pairwise_stableSort
      · simp only [decide_eq_false_iff_not]
        omega
      · simp only [decide_eq_false_iff_not]
        omega
    apply (hsorted.and hnodup).imp
    rintro a b ⟨hle, hne⟩
    rw [decide_eq_false_iff_not] at hle
    exact lt_of_le_of_ne (Nat.le_of_not_lt hle) hne
  | descendingOrder =>
    rw [horder] at hnodup
    have hsorted : (stableSort (fun a b => a > b) l).Pairwise
        fun a b => decide (b > a) = false := by
      apply pairwise_stableSort
      · simp only [decide_eq_false_iff_not]
        omega
      · simp only [decide_eq_false_iff_not]
        omega
    apply (hsorted.and hnodup).imp
    rintro a b ⟨hle, hne⟩
    rw [decide_eq_false_iff_not] at hle
    exact lt_of_le_of_ne (Nat.le_of_not_lt hle) hne.symm

/-- A list of rows in an order is the full sort. -/
theorem eq_sortSourceRows_iff (hd : d.sourceSortColumn = -1) (h : Faithful accepted m) :
  m.proxyToSource = d.sortSourceRows (acceptedRows accepted)
    ↔ m.proxyToSource.Pairwise (Mapping.Follows d.sortOrder)
  := by
  have hsorted : (d.sortSourceRows (acceptedRows accepted)).Pairwise _ :=
    pairwise_sortSourceRows hd nodup_acceptedRows
  constructor
  · intro heq
    rw [heq]
    exact hsorted
  · intro hpairwise
    have hperm : m.proxyToSource.Perm (d.sortSourceRows (acceptedRows accepted)) := by
      apply List.Perm.trans _ Mapping.sortSourceRows_perm.symm
      rw [List.perm_ext_iff_of_nodup h.valid.nodup nodup_acceptedRows]
      intro i
      rw [h.mem, mem_acceptedRows]
    apply hperm.eq_of_pairwise _ hpairwise hsorted
    intro a b _ _ hab hba
    cases horder : d.sortOrder with
    | ascendingOrder =>
      rw [horder] at hab hba
      exact absurd hab (Nat.lt_asymm hba)
    | descendingOrder =>
      rw [horder] at hab hba
      exact absurd hab (Nat.lt_asymm hba)

/-! ### Steps -/

theorem faithful_createMapping :
  Faithful accepted (d.createMapping (accepts accepted) accepted.length)
  := by
  constructor
  · apply Mapping.valid_createMapping
  · rw [createMapping, Mapping.length_buildSourceToProxyMapping, List.length_replicate]
  · intro i
    rw [createMapping, Mapping.sortSourceRows_perm.mem_iff]
    exact mem_acceptedRows

theorem createMapping_ordered (hd : d.sourceSortColumn = -1) :
  (d.createMapping (accepts accepted) accepted.length).proxyToSource.Pairwise
    (Mapping.Follows d.sortOrder)
  := pairwise_sortSourceRows hd nodup_acceptedRows

/-- Rows are inserted into a mapping. -/
theorem insert_faithful (h : m.Valid) (hnodup : l.Nodup)
    (hlt : ∀ a ∈ l, a < m.sourceToProxy.length) (hnew : ∀ a ∈ l, a ∉ m.proxyToSource)
    (hlength : m.sourceToProxy.length = accepted.length)
    (hmem : ∀ i : ℕ, accepted[i]? = some true ↔ i ∈ l ∨ i ∈ m.proxyToSource) :
  Faithful accepted (d.insertSourceItems m (d.sortSourceRows l) .rows false true)
  := by
  have hperm : (d.sortSourceRows l).Perm l := Mapping.sortSourceRows_perm
  obtain ⟨hvalid, hlist, hsize, -⟩ := h.insertSourceItems d .rows (hperm.nodup_iff.mpr hnodup)
    (fun a ha => hlt a (hperm.mem_iff.mp ha)) (fun a ha => hnew a (hperm.mem_iff.mp ha))
  constructor
  · exact hvalid
  · rw [hsize, hlength]
  · intro i
    rw [hlist, spliceAll_perm.mem_iff, (Mapping.proxyIntervalsToAdd ..).2, List.mem_append,
      hperm.mem_iff, hmem]

theorem insert_ordered_iff (hd : d.sourceSortColumn = -1) (h : m.Valid)
    (hm : m.proxyToSource.Pairwise (Mapping.Follows d.sortOrder)) (hnodup : l.Nodup)
    (hlt : ∀ a ∈ l, a < m.sourceToProxy.length) (hnew : ∀ a ∈ l, a ∉ m.proxyToSource) :
  (d.insertSourceItems m (d.sortSourceRows l) .rows false true).proxyToSource.Pairwise
      (Mapping.Follows d.sortOrder)
    ↔ ¬(d.sortOrder = .descendingOrder ∧ (∃ a, a ∈ m.proxyToSource) ∧ ∃ a, a ∈ l)
  := by
  have hperm : (d.sortSourceRows l).Perm l := Mapping.sortSourceRows_perm
  rw [h.insert_ordered_iff hd hm (pairwise_sortSourceRows hd hnodup)
    (hperm.nodup_iff.mpr hnodup) (fun a ha => hlt a (hperm.mem_iff.mp ha))
    (fun a ha => hnew a (hperm.mem_iff.mp ha))]
  simp only [ne_eq, List.eq_nil_iff_forall_not_mem, not_forall, not_not, hperm.mem_iff]

theorem handleFilterChanged_eq :
  d.handleFilterChanged f m
    = d.insertSourceItems
      (removeSourceItems m (m.proxyToSource.filter fun item => !f item) false true)
      (d.sortSourceRows ((List.range m.sourceToProxy.length).filter fun item =>
        m.sourceToProxy.getD item none = none && f item)) .rows false true
  := by
  rw [handleFilterChanged]
  dsimp only
  split_ifs with hsome
  · rfl
  · rw [Bool.or_eq_true, decide_eq_true_iff, decide_eq_true_iff] at hsome
    push Not at hsome
    have hnil : d.sortSourceRows [] = [] := Mapping.sortSourceRows_perm.eq_nil
    rw [hsome.1, hsome.2, hnil]
    rfl

theorem getElem?_eq_false_iff :
  accepted[i]? = some false ↔ i < accepted.length ∧ ¬accepted[i]? = some true
  := by
  rw [List.getElem?_eq_some_iff, List.getElem?_eq_some_iff]
  constructor
  · rintro ⟨hi, hfalse⟩
    use hi
    rintro ⟨hi', htrue⟩
    rw [hfalse] at htrue
    cases htrue
  · rintro ⟨hi, hnot⟩
    use hi
    rw [← Bool.not_eq_true]
    intro htrue
    exact hnot ⟨hi, htrue⟩

/-- A change of the filter: the rows that it rejects are removed, and those that it accepts are
inserted. -/
theorem filterChanged_spec (hd : d.sourceSortColumn = -1) (h : Faithful accepted m) :
  Faithful ((List.range accepted.length).map f) (d.handleFilterChanged f m)
    ∧ (m.proxyToSource.Pairwise (Mapping.Follows d.sortOrder) →
      ((d.handleFilterChanged f m).proxyToSource.Pairwise (Mapping.Follows d.sortOrder)
        ↔ ¬(d.sortOrder = .descendingOrder ∧ (∃ i : ℕ, accepted[i]? = some true ∧ f i)
          ∧ ∃ i : ℕ, accepted[i]? = some false ∧ f i)))
  := by
  rw [handleFilterChanged_eq]
  obtain ⟨hvalid, hlist, hlength, -⟩ := h.valid.removeSourceItems
    (h.valid.nodup.filter fun item => !f item) fun a ha => List.mem_of_mem_filter ha
  have hkept : ∀ i, i ∈ (removeSourceItems m (m.proxyToSource.filter fun item => !f item) false
      true).proxyToSource ↔ accepted[i]? = some true ∧ f i := by
    intro i
    rw [hlist]
    simp only [List.mem_filter, decide_eq_true_iff, h.mem, Bool.not_eq_true', not_and,
      Bool.not_eq_false]
    exact and_congr_right fun hi => forall_prop_of_true hi
  have hadded : ∀ i, i ∈ ((List.range m.sourceToProxy.length).filter fun item =>
      m.sourceToProxy.getD item none = none && f item) ↔ accepted[i]? = some false ∧ f i := by
    intro i
    simp only [List.mem_filter, Bool.and_eq_true, decide_eq_true_iff, h.valid.getD_eq_none_iff,
      h.mem, List.mem_range, h.length]
    rw [getElem?_eq_false_iff, and_assoc]
  have hnodup : ((List.range m.sourceToProxy.length).filter fun item =>
      m.sourceToProxy.getD item none = none && f item).Nodup := List.nodup_range.filter _
  generalize removeSourceItems m (m.proxyToSource.filter fun item => !f item) false true = m' at *
  generalize (List.range m.sourceToProxy.length).filter (fun item =>
    m.sourceToProxy.getD item none = none && f item) = added at *
  have hlt : ∀ i ∈ added, i < m'.sourceToProxy.length := by
    intro i hi
    rw [hlength, h.length]
    exact (List.getElem?_eq_some_iff.mp ((hadded i).mp hi).1).1
  have hnew : ∀ i ∈ added, i ∉ m'.proxyToSource := by
    intro i hi hmem
    rw [hadded] at hi
    rw [hkept, hi.1] at hmem
    cases Option.some_inj.mp hmem.1
  constructor
  · apply insert_faithful hvalid hnodup hlt hnew
    · rw [hlength, h.length, List.length_map, List.length_range]
    · intro i
      rw [hadded, hkept, ← or_and_right, getElem?_eq_false_iff, List.getElem?_map]
      by_cases hi : i < accepted.length
      · rw [List.getElem?_range hi, Option.map_some, Option.some_inj]
        simp only [hi, true_and, not_or_of_imp, imp_self]
      · rw [List.getElem?_eq_none (by rw [List.length_range]; omega)]
        simp [hi]
  · intro hm
    rw [insert_ordered_iff hd hvalid _ hnodup hlt hnew]
    · simp only [hkept, hadded]
    · rw [hlist]
      exact hm.filter _

theorem shift_lt_shift_iff {count a b : ℕ} :
  shift start count a < shift start count b ↔ a < b
  := by
  rw [shift, shift]
  split_ifs with ha hb hb
  · omega
  · omega
  · omega
  · omega

theorem shift_injective {count : ℕ} :
  Function.Injective (shift start count)
  := by
  intro a b hab
  have hlt : shift start count a < shift start count b ↔ a < b := shift_lt_shift_iff
  have hgt : shift start count b < shift start count a ↔ b < a := shift_lt_shift_iff
  omega

/-- The mapping is expanded for new rows. -/
theorem expand_spec (h : Faithful accepted m) (hstart : start ≤ accepted.length) (count : ℕ) :
  (expand m start count).Valid
    ∧ (expand m start count).sourceToProxy.length = accepted.length + count
    ∧ (expand m start count).proxyToSource = m.proxyToSource.map (shift start count)
  := by
  have hlength : (m.sourceToProxy.take start ++ List.replicate count none
      ++ m.sourceToProxy.drop start).length = accepted.length + count := by
    simp only [List.length_append, List.length_take, List.length_replicate, List.length_drop,
      h.length]
    omega
  have hlt : ∀ a ∈ m.proxyToSource, a < accepted.length := by
    intro a ha
    rw [← h.length]
    exact h.valid.lt ha
  rw [expand]
  split_ifs with hinside
  · refine ⟨?_, ?_, rfl⟩
    · apply Mapping.valid_build_zero
      · apply h.valid.nodup.map shift_injective
      · intro a ha
        obtain ⟨b, hb, rfl⟩ := List.mem_map.mp ha
        have hb_lt := hlt b hb
        rw [hlength, shift]
        split_ifs
        · omega
        · omega
    · rw [Mapping.length_buildSourceToProxyMapping, hlength]
  · have hend : m.sourceToProxy.length = start := by
      rw [h.length] at hinside ⊢
      omega
    have hmap : m.proxyToSource.map (shift start count) = m.proxyToSource.map id := by
      apply List.map_congr_left
      intro a ha
      have ha_lt := hlt a ha
      rw [shift, if_neg (by rw [← hend, h.length]; omega)]
      rfl
    rw [List.map_id] at hmap
    refine ⟨?_, hlength, hmap.symm⟩
    constructor
    intro item i
    change (m.sourceToProxy.take start ++ _ ++ m.sourceToProxy.drop start)[item]? = _ ↔ _
    rw [← hend, List.take_length, List.drop_length, List.append_nil, ← h.valid.inverse,
      List.getElem?_append]
    split_ifs with hitem
    · rfl
    · rw [List.getElem?_replicate, List.getElem?_eq_none (Nat.le_of_not_lt hitem)]
      split_ifs
      · simp
      · simp

/-- Rows are inserted into the source. -/
theorem rowsInserted_spec (hd : d.sourceSortColumn = -1) (h : Faithful accepted m)
    (hstart : start ≤ accepted.length) {accepted' : List Bool}
    (haccepted : accepted' = accepted.take start ++ new ++ accepted.drop start) :
  ∃ m', d.sourceRowsInserted (accepts accepted') m start new.length = some m'
    ∧ Faithful accepted' m'
    ∧ (m.proxyToSource.Pairwise (Mapping.Follows d.sortOrder) →
      (m'.proxyToSource.Pairwise (Mapping.Follows d.sortOrder)
        ↔ ¬(d.sortOrder = .descendingOrder ∧ true ∈ accepted ∧ true ∈ new)))
  := by
  obtain ⟨hvalid, hlength, hlist⟩ := expand_spec h hstart new.length
  rw [sourceRowsInserted, if_neg (by rw [h.length]; omega)]
  have hat (i : ℕ) : accepted'[i]? = if i < start then accepted[i]?
      else if i < start + new.length then new[i - start]? else accepted[i - new.length]? := by
    have htake : (accepted.take start).length = start := by
      rw [List.length_take, Nat.min_eq_left hstart]
    rw [haccepted, List.append_assoc, List.getElem?_append, htake]
    split_ifs with hfront hnew
    · rw [List.getElem?_take, if_pos hfront]
    · rw [List.getElem?_append_left (by omega)]
    · rw [List.getElem?_append_right (by omega), List.getElem?_drop]
      congr 1
      omega
  have hadded : ∀ i, i ∈ (List.range' start new.length).filter (accepts accepted')
      ↔ start ≤ i ∧ new[i - start]? = some true := by
    intro i
    rw [List.mem_filter, accepts_iff, List.mem_range'_1, hat]
    constructor
    · rintro ⟨⟨hlow, hhigh⟩, hi⟩
      rw [if_neg (by omega), if_pos hhigh] at hi
      exact ⟨hlow, hi⟩
    · rintro ⟨hlow, hi⟩
      have hhigh := (List.getElem?_eq_some_iff.mp hi).1
      rw [if_neg (by omega), if_pos (by omega)]
      exact ⟨⟨hlow, by omega⟩, hi⟩
  have hkept : ∀ i, i ∈ (expand m start new.length).proxyToSource
      ↔ (i < start ∧ accepted[i]? = some true)
        ∨ (start + new.length ≤ i ∧ accepted[i - new.length]? = some true) := by
    intro i
    rw [hlist, List.mem_map]
    simp only [h.mem]
    constructor
    · rintro ⟨a, ha, rfl⟩
      rw [shift]
      split_ifs with hge
      · right
        rw [Nat.add_sub_cancel]
        exact ⟨by omega, ha⟩
      · left
        exact ⟨by omega, ha⟩
    · rintro (⟨hlt, hi⟩ | ⟨hle, hi⟩)
      · exact ⟨i, hi, by rw [shift, if_neg (by omega)]⟩
      · exact ⟨i - new.length, hi, by rw [shift, if_pos (by omega)]; omega⟩
  have hsize : accepted'.length = accepted.length + new.length := by
    rw [haccepted]
    simp only [List.length_append, List.length_take, List.length_drop]
    omega
  have hnodup : ((List.range' start new.length).filter (accepts accepted')).Nodup :=
    List.Nodup.filter _ List.nodup_range'
  have hshifted (hm : m.proxyToSource.Pairwise (Mapping.Follows d.sortOrder)) :
      (m.proxyToSource.map (shift start new.length)).Pairwise (Mapping.Follows d.sortOrder) := by
    rw [List.pairwise_map]
    apply hm.imp
    intro a b hab
    cases horder : d.sortOrder with
    | ascendingOrder =>
      rw [horder] at hab
      exact shift_lt_shift_iff.mpr hab
    | descendingOrder =>
      rw [horder] at hab
      exact shift_lt_shift_iff.mpr hab
  refine ⟨_, rfl, ?_⟩
  generalize expand m start new.length = m' at *
  generalize (List.range' start new.length).filter (accepts accepted') = added at *
  have hlt : ∀ i ∈ added, i < m'.sourceToProxy.length := by
    intro i hi
    obtain ⟨hlow, hnew⟩ := (hadded i).mp hi
    have hbound := (List.getElem?_eq_some_iff.mp hnew).1
    omega
  have hnew : ∀ i ∈ added, i ∉ m'.proxyToSource := by
    intro i hi hmem
    obtain ⟨hlow, hnew⟩ := (hadded i).mp hi
    have hbound := (List.getElem?_eq_some_iff.mp hnew).1
    rcases (hkept i).mp hmem with ⟨hfront, -⟩ | ⟨hback, -⟩
    · omega
    · omega
  constructor
  · apply insert_faithful hvalid hnodup hlt hnew
    · rw [hlength, hsize]
    · intro i
      rw [hadded, hkept, hat]
      split_ifs with hfront hinside
      · have hlow : ¬start ≤ i := by omega
        have hhigh : ¬start + new.length ≤ i := by omega
        simp only [hfront, hlow, hhigh, true_and, false_and, or_false, false_or]
      · have hlow : start ≤ i := by omega
        have hhigh : ¬start + new.length ≤ i := by omega
        simp only [hfront, hlow, hhigh, true_and, false_and, or_false]
      · have hlow : start + new.length ≤ i := by omega
        have hnone : new[i - start]? = none := List.getElem?_eq_none (by omega)
        simp only [hfront, hlow, hnone, reduceCtorEq, true_and, false_and, and_false, false_or]
  · intro hm
    rw [insert_ordered_iff hd hvalid _ hnodup hlt hnew]
    · have hrows : (∃ i, i ∈ m'.proxyToSource) ↔ true ∈ accepted := by
        rw [hlist, List.mem_iff_getElem?]
        simp only [List.mem_map, ← h.mem]
        exact ⟨fun ⟨_, a, ha, _⟩ => ⟨a, ha⟩, fun ⟨a, ha⟩ => ⟨_, a, ha, rfl⟩⟩
      have hrows' : (∃ i, i ∈ added) ↔ true ∈ new := by
        rw [List.mem_iff_getElem?]
        simp only [hadded]
        constructor
        · rintro ⟨i, -, hi⟩
          exact ⟨_, hi⟩
        · rintro ⟨i, hi⟩
          use start + i, Nat.le_add_right start i
          rw [Nat.add_sub_cancel_left]
          exact hi
      rw [hrows, hrows']
    · rw [hlist]
      exact hshifted hm

/-! ### Runs -/

/-- The mapping of a parent has the accepted rows. -/
def Maps (s : SourceParent) : Prop :=
  ∀ m ∈ s.mapping, Faithful s.accepted m

theorem faithful_getD (h : s.Maps) :
  Faithful s.accepted (s.mapping.getD (d.createMapping (accepts s.accepted) s.accepted.length))
  := by
  cases hmapping : s.mapping with
  | none => exact faithful_createMapping
  | some m => exact h m hmapping

theorem ordered_getD (hd : d.sourceSortColumn = -1) (h : s.Maps) (horder : s.InSourceOrder d) :
  (s.mapping.getD (d.createMapping (accepts s.accepted) s.accepted.length)).proxyToSource.Pairwise
    (Mapping.Follows d.sortOrder)
  := by
  cases hmapping : s.mapping with
  | none => exact createMapping_ordered hd
  | some m => exact (eq_sortSourceRows_iff hd (h m hmapping)).mp (horder m hmapping)

theorem inSourceOrder_some_iff (hd : d.sourceSortColumn = -1) (h : Faithful accepted m) :
  InSourceOrder d ⟨accepted, some m⟩ ↔ m.proxyToSource.Pairwise (Mapping.Follows d.sortOrder)
  := by
  rw [← eq_sortSourceRows_iff hd h]
  constructor
  · intro horder
    exact horder m rfl
  · rintro horder m' hm'
    rw [← Option.some_inj.mp hm']
    exact horder

theorem step_spec (hd : d.sourceSortColumn = -1) (h : s.Maps) (change : SourceChange) :
  (s.step d change).Maps
    ∧ (s.InSourceOrder d → ((s.step d change).InSourceOrder d ↔ ¬s.Misplaces d change))
  := by
  cases change with
  | mapped =>
    have hm := faithful_getD (d := d) h
    constructor
    · intro m hmapping
      rw [← Option.some_inj.mp hmapping]
      exact hm
    · intro horder
      apply iff_of_true ((inSourceOrder_some_iff hd hm).mpr (ordered_getD hd h horder))
      exact And.right
  | rowsInserted start new =>
    have hm := faithful_getD (d := d) h
    by_cases hstart : start ≤ s.accepted.length
    · obtain ⟨m', hinserted, hm', hiff⟩ := rowsInserted_spec hd hm hstart rfl
      rw [step, hinserted]
      constructor
      · intro m hmapping
        rw [← Option.some_inj.mp hmapping]
        exact hm'
      · intro horder
        rw [inSourceOrder_some_iff hd hm', hiff (ordered_getD hd h horder), Misplaces]
        simp only [hstart, true_and]
    · rw [step, sourceRowsInserted, if_pos (by rw [hm.length]; omega)]
      constructor
      · intro m hmapping
        cases hmapping
      · intro horder
        apply iff_of_true
        · intro m hmapping
          cases hmapping
        · rintro ⟨-, hle, -⟩
          exact hstart hle
  | filterChanged f =>
    rw [step, Misplaces]
    cases hmapping : s.mapping with
    | none =>
      constructor
      · intro m hnone
        cases hnone
      · intro horder
        apply iff_of_true
        · intro m hnone
          cases hnone
        · rintro ⟨-, hsome, -⟩
          cases hsome
    | some m =>
      have hm := h m hmapping
      obtain ⟨hm', hiff⟩ := filterChanged_spec (f := f) hd hm
      constructor
      · intro m' hsome
        rw [← Option.some_inj.mp hsome]
        exact hm'
      · intro horder
        have hpairwise := (eq_sortSourceRows_iff hd hm).mp (horder m hmapping)
        rw [Option.map_some, inSourceOrder_some_iff hd hm', hiff hpairwise]
        simp only [Option.isSome_some, true_and]

variable {changes : List SourceChange}

theorem run_concat {change : SourceChange} :
  run d accepted (changes ++ [change]) = (run d accepted changes).step d change
  := List.foldl_concat ..

theorem run_maps (hd : d.sourceSortColumn = -1) :
  (run d accepted changes).Maps
  := by
  induction changes using List.reverseRecOn with
  | nil =>
    intro m hmapping
    cases hmapping
  | append_singleton changes change ih =>
    rw [run_concat]
    exact (step_spec hd ih change).1

/-- In a run the proxy keeps the order of a full sort if and only if no change adds rows to others
in descending order. -/
theorem run_inSourceOrder_iff (h_d : d.sourceSortColumn = -1) (accepted : List Bool)
    (changes : List SourceChange) :
  (∀ before, before <+: changes → (run d accepted before).InSourceOrder d)
    ↔ ∀ before change, before ++ [change] <+: changes →
      ¬(run d accepted before).Misplaces d change
  := by
  constructor
  · intro h before change h_prefix
    have h_order := h before ((List.prefix_append before [change]).trans h_prefix)
    have h_next := h (before ++ [change]) h_prefix
    rw [run_concat] at h_next
    exact ((step_spec h_d (run_maps h_d) change).2 h_order).mp h_next
  · intro h before h_prefix
    induction before using List.reverseRecOn with
    | nil =>
      intro m h_mapping
      cases h_mapping
    | append_singleton before change ih =>
      have h_order := ih ((List.prefix_append before [change]).trans h_prefix)
      rw [run_concat]
      exact ((step_spec h_d (run_maps h_d) change).2 h_order).mpr (h before change h_prefix)

theorem run_inSourceOrder_insert :
  (∀ before, before <+: [SourceChange.mapped, .rowsInserted 1 [true]] →
      (run ⟨-1, .ascendingOrder, true, fun _ _ => false⟩ [true, true] before).InSourceOrder
        ⟨-1, .ascendingOrder, true, fun _ _ => false⟩)
    ↔ ∀ before change, before ++ [change] <+: [SourceChange.mapped, .rowsInserted 1 [true]] →
      ¬(run ⟨-1, .ascendingOrder, true, fun _ _ => false⟩ [true, true] before).Misplaces
        ⟨-1, .ascendingOrder, true, fun _ _ => false⟩ change
  := run_inSourceOrder_iff rfl [true, true] [.mapped, .rowsInserted 1 [true]]

/-- A row that is appended to two rows in descending order stands behind them. -/
theorem run_appended_descending :
  (run ⟨-1, .descendingOrder, true, fun _ _ => false⟩ [true, true]
      [.mapped, .rowsInserted 2 [true]]).mapping.map Mapping.proxyToSource = some [1, 0, 2]
    ∧ sortSourceRows ⟨-1, .descendingOrder, true, fun _ _ => false⟩
      (acceptedRows [true, true, true]) = [2, 1, 0]
    ∧ ¬(run ⟨-1, .descendingOrder, true, fun _ _ => false⟩ [true, true]
      [.mapped, .rowsInserted 2 [true]]).InSourceOrder
        ⟨-1, .descendingOrder, true, fun _ _ => false⟩
  := by
  have h_search : searchProxyItem
      (placedBefore ⟨-1, .descendingOrder, true, fun _ _ => false⟩ .rows) [1, 0] 2 0 2 = 2 := by
    simp [searchProxyItem, placedBefore]
  have h_insert : (insertSourceItems ⟨-1, .descendingOrder, true, fun _ _ => false⟩
      ⟨[some 1, some 0, none], [1, 0], []⟩ [2] .rows false true).proxyToSource = [1, 0, 2] := by
    rw [insertSourceItems, proxyIntervalsForSourceItemsToAdd]
    dsimp only [List.length_cons, List.length_nil]
    rw [h_search]
    rfl
  have h_rows : (run ⟨-1, .descendingOrder, true, fun _ _ => false⟩ [true, true]
      [.mapped, .rowsInserted 2 [true]]).mapping.map Mapping.proxyToSource = some [1, 0, 2] :=
    congrArg some h_insert
  have h_sort : sortSourceRows ⟨-1, .descendingOrder, true, fun _ _ => false⟩
      (acceptedRows [true, true, true]) = [2, 1, 0] := by decide
  use h_rows, h_sort
  intro h_order
  rw [Option.map_eq_some_iff] at h_rows
  obtain ⟨m, h_m, h_rows⟩ := h_rows
  have h_eq := h_order m h_m
  rw [h_rows] at h_eq
  cases h_eq.trans h_sort

end SourceParent
