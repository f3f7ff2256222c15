import BobUI.Corelib.ItemModels.SortFilterProxy
import BobUI.Library.ListEdits
import Mathlib.Tactic.Common
import Mathlib.Tactic.SplitIfs

/-!
# The mapping of a proxy

A mapping is valid if `sourceToProxy` is the inverse of `proxyToSource`.  Removing an interval and
inserting one keep it valid, and their signals tell a view what has changed.
-/

open QSortFilterProxyModelPrivate ListEdits

namespace Mapping

/-- `sourceToProxy` is the inverse of `proxyToSource`. -/
structure Valid (m : Mapping) : Prop where
  inverse : ∀ item i : ℕ, m.sourceToProxy[item]? = some (some i) ↔ m.proxyToSource[i]? = some item

variable {m m' m'' : Mapping} {item i k start : ℕ} {items l : List ℕ} {s : List (Option ℕ)}

theorem Valid.nodup (h : m.Valid) :
  m.proxyToSource.Nodup
  := by
  rw [List.nodup_iff_getElem?_ne_getElem?]
  intro i j hij hj heq
  have hitem : m.proxyToSource[i]? = some m.proxyToSource[i] :=
    List.getElem?_eq_getElem (hij.trans hj)
  have hi := (h.inverse _ _).mpr hitem
  have hj := (h.inverse _ _).mpr (heq.symm.trans hitem)
  rw [hi, Option.some_inj, Option.some_inj] at hj
  omega

theorem Valid.lt (h : m.Valid) (hitem : item ∈ m.proxyToSource) :
  item < m.sourceToProxy.length
  := by
  obtain ⟨i, hi⟩ := List.mem_iff_getElem?.mp hitem
  have hsome := (h.inverse item i).mpr hi
  apply (List.getElem?_eq_some_iff.mp hsome).1

/-- The items that the mapping does not have. -/
theorem Valid.getD_eq_none_iff (h : m.Valid) :
  m.sourceToProxy.getD item none = none ↔ item ∉ m.proxyToSource
  := by
  rw [List.mem_iff_getElem?, List.getD_eq_getElem?_getD]
  simp only [← h.inverse]
  cases hitem : m.sourceToProxy[item]? with
  | none => simp
  | some j => cases j <;> simp

theorem Valid.proxyItem_eq (h : m.Valid) (hi : m.proxyToSource[i]? = some item) :
  proxyItem m.sourceToProxy item = i
  := by
  rw [proxyItem, List.getD_eq_getElem?_getD, (h.inverse item i).mpr hi]
  rfl

/-! ### Building the inverse -/

@[simp]
theorem length_writeProxyItems :
  (writeProxyItems k items s).length = s.length
  := by
  induction items generalizing k s with
  | nil => rfl
  | cons a items ih => rw [writeProxyItems, ih, List.length_set]

@[simp]
theorem length_buildSourceToProxyMapping :
  (buildSourceToProxyMapping l s start).length = s.length
  := by
  rw [buildSourceToProxyMapping, length_writeProxyItems]
  split_ifs
  · rw [List.length_map]
  · rfl

/-- What the loop writes. -/
theorem getElem?_writeProxyItems (h : items.Nodup) (hlt : ∀ a ∈ items, a < s.length) :
  (writeProxyItems k items s)[item]? = some (some i)
    ↔ (∃ j, items[j]? = some item ∧ i = k + j) ∨ item ∉ items ∧ s[item]? = some (some i)
  := by
  induction items generalizing k s with
  | nil => simp [writeProxyItems]
  | cons a items ih =>
    obtain ⟨ha, hnodup⟩ := List.nodup_cons.mp h
    have hrest : ∀ b ∈ items, b < (s.set a (some k)).length := by
      intro b hb
      rw [List.length_set]
      exact hlt b (List.mem_cons_of_mem a hb)
    rw [writeProxyItems, ih hnodup hrest, List.getElem?_set]
    have hsplit : (∃ j, (a :: items)[j]? = some item ∧ i = k + j)
        ↔ a = item ∧ i = k ∨ ∃ j, items[j]? = some item ∧ i = k + 1 + j := by
      constructor
      · rintro ⟨_ | j, hj, rfl⟩
        · exact Or.inl ⟨Option.some_inj.mp hj, rfl⟩
        · exact Or.inr ⟨j, hj, by omega⟩
      · rintro (⟨rfl, rfl⟩ | ⟨j, hj, rfl⟩)
        · exact ⟨0, rfl, rfl⟩
        · exact ⟨j + 1, hj, by omega⟩
    rw [hsplit]
    by_cases hitem : a = item
    · subst hitem
      rw [if_pos rfl, if_pos (hlt a List.mem_cons_self), Option.some_inj, Option.some_inj]
      simp only [ha, not_false_eq_true, true_and, List.mem_cons_self, not_true_eq_false,
        false_and, or_false]
      rw [or_comm, @eq_comm _ k i]
    · rw [if_neg hitem]
      have hmem : item ∉ a :: items ↔ item ∉ items := by
        rw [List.mem_cons, not_or]
        exact and_iff_right (Ne.symm hitem)
      rw [hmem]
      simp only [hitem, false_and, false_or]

/-- A mapping is built from a place on: before it the inverse is right already. -/
theorem valid_build (h : l.Nodup) (hlt : ∀ a ∈ l, a < s.length)
    (hfront : ∀ item i : ℕ, item ∉ l.drop start →
      (s[item]? = some (some i) ↔ (l.take start)[i]? = some item)) (c : List Change) :
  Valid ⟨buildSourceToProxyMapping l s start, l, c⟩
  := by
  constructor
  intro item i
  change (buildSourceToProxyMapping l s start)[item]? = some (some i) ↔ l[i]? = some item
  have hnodup : (l.drop start).Nodup := h.sublist (List.drop_sublist start l)
  rw [buildSourceToProxyMapping, getElem?_writeProxyItems hnodup]
  · rw [List.mem_iff_getElem?]
    simp only [List.getElem?_drop]
    constructor
    · rintro (⟨j, hj, rfl⟩ | ⟨hitem, hs⟩)
      · exact hj
      · split_ifs at hs with hstart
        · rw [List.getElem?_map, Option.map_eq_some_iff] at hs
          obtain ⟨x, -, hx⟩ := hs
          cases hx
        · rw [hfront item i, List.getElem?_take] at hs
          · split_ifs at hs
            exact hs
          · rw [List.mem_iff_getElem?]
            simpa only [List.getElem?_drop] using hitem
    · intro hi
      by_cases hstart : start ≤ i
      · left
        use i - start
        rw [Nat.add_sub_cancel' hstart]
        exact ⟨hi, rfl⟩
      · right
        have hitem : ¬∃ j, l[start + j]? = some item := by
          rintro ⟨j, hj⟩
          have hlt := (List.getElem?_eq_some_iff.mp hj).1
          rw [List.nodup_iff_getElem?_ne_getElem?] at h
          exact h i (start + j) (by omega) hlt (hi.trans hj.symm)
        use hitem
        rw [if_neg (by omega), hfront item i, List.getElem?_take, if_pos (by omega)]
        · exact hi
        · rw [List.mem_iff_getElem?]
          simpa only [List.getElem?_drop] using hitem
  · intro a ha
    have hlength : (if start = 0 then s.map fun _ => none else s).length = s.length := by
      split_ifs
      · rw [List.length_map]
      · rfl
    rw [hlength]
    apply hlt a (List.mem_of_mem_drop ha)

/-! ### Removing an interval -/

theorem getElem?_foldl_set_none :
  (items.foldl (fun s a => s.set a none) s)[item]? = some (some i)
    ↔ s[item]? = some (some i) ∧ item ∉ items
  := by
  induction items generalizing s with
  | nil => simp
  | cons a items ih =>
    rw [List.foldl_cons, ih, List.getElem?_set, List.mem_cons, not_or]
    by_cases ha : a = item
    · rw [if_pos ha]
      split_ifs
      · simp [ha]
      · simp [ha]
    · rw [if_neg ha]
      simp [Ne.symm ha]

@[simp]
theorem length_foldl_set_none :
  (items.foldl (fun s a => s.set a none) s).length = s.length
  := by
  induction items generalizing s with
  | nil => rfl
  | cons a items ih => rw [List.foldl_cons, ih, List.length_set]

/-- A list in front of another one, at whose positions an item stands that the other does not
have. -/
theorem getElem?_append_of_not_mem {l l' : List ℕ} (h : item ∉ l') :
  (l ++ l')[i]? = some item ↔ l[i]? = some item
  := by
  rw [List.getElem?_append]
  split_ifs with hi
  · rfl
  · rw [List.getElem?_eq_none (Nat.le_of_not_lt hi)]
    apply iff_of_false
    · intro hitem
      apply h (List.mem_of_getElem? hitem)
    · intro hnone
      cases hnone

variable {proxyStart proxyEnd : ℕ} {emitSignal : Bool}

theorem length_removeProxyInterval :
  (removeProxyInterval m proxyStart proxyEnd emitSignal).sourceToProxy.length
    = m.sourceToProxy.length
  := by
  rw [removeProxyInterval, length_buildSourceToProxyMapping, length_foldl_set_none]

theorem Valid.removeProxyInterval (h : m.Valid) (hle : proxyStart ≤ proxyEnd)
    (hlt : proxyEnd < m.proxyToSource.length) :
  (removeProxyInterval m proxyStart proxyEnd emitSignal).Valid
  := by
  obtain ⟨p, q, r, hl, rfl, hq⟩ := exists_block hle hlt
  have hcut := cut_append (q := q) (r := r) rfl hq
  rw [← hl, cut] at hcut
  have hblock : (m.proxyToSource.take (proxyEnd + 1)).drop p.length = q := by
    rw [hl, ← List.append_assoc, ← hq, ← List.length_append, List.take_left, List.drop_left]
  have hnodup := h.nodup
  rw [hl] at hnodup
  rw [QSortFilterProxyModelPrivate.removeProxyInterval]
  rw [hcut, hblock]
  apply valid_build
  · apply hnodup.sublist ((List.sublist_append_right q r).append_left p)
  · intro a ha
    rw [length_foldl_set_none]
    apply h.lt
    rw [hl]
    apply ((List.sublist_append_right q r).append_left p).subset ha
  · intro item i hitem
    rw [List.drop_left] at hitem
    rw [List.take_left, getElem?_foldl_set_none, h.inverse, hl]
    constructor
    · rintro ⟨hi, hnot⟩
      rw [getElem?_append_of_not_mem] at hi
      · exact hi
      · rw [List.mem_append]
        exact not_or.mpr ⟨hnot, hitem⟩
    · intro hi
      constructor
      · rw [List.getElem?_append_left (List.getElem?_eq_some_iff.mp hi).1]
        exact hi
      · intro hq
        have hdisjoint := (List.nodup_append.mp hnodup).2.2
        exact hdisjoint item (List.mem_of_getElem? hi) item (List.mem_append_left r hq) rfl

/-! ### Inserting an interval -/

theorem length_insertProxyInterval :
  (insertProxyInterval m proxyStart items emitSignal).sourceToProxy.length
    = m.sourceToProxy.length
  := length_buildSourceToProxyMapping

theorem Valid.insertProxyInterval (h : m.Valid) (hstart : proxyStart ≤ m.proxyToSource.length)
    (hnodup : items.Nodup) (hlt : ∀ a ∈ items, a < m.sourceToProxy.length)
    (hnew : ∀ a ∈ items, a ∉ m.proxyToSource) :
  (insertProxyInterval m proxyStart items emitSignal).Valid
  := by
  have hperm : (splice m.proxyToSource proxyStart items).Perm (items ++ m.proxyToSource) :=
    splice_perm
  have htake : (m.proxyToSource.take proxyStart).length = proxyStart := by
    rw [List.length_take, Nat.min_eq_left hstart]
  apply valid_build (l := splice m.proxyToSource proxyStart items)
  · rw [hperm.nodup_iff, List.nodup_append]
    use hnodup, h.nodup
    intro a ha b hb hab
    exact hnew a ha (hab ▸ hb)
  · intro a ha
    rcases List.mem_append.mp (hperm.mem_iff.mp ha) with ha | ha
    · apply hlt a ha
    · apply h.lt ha
  · intro item i hitem
    rw [splice, List.append_assoc, List.drop_left' htake, List.mem_append, not_or] at hitem
    rw [splice, List.append_assoc, List.take_left' htake, h.inverse]
    nth_rewrite 1 [← List.take_append_drop proxyStart m.proxyToSource]
    apply getElem?_append_of_not_mem hitem.2

/-! ### Creating a mapping -/

theorem sortSourceRows_perm {d : QSortFilterProxyModelPrivate} :
  (d.sortSourceRows l).Perm l
  := by
  rw [sortSourceRows]
  split_ifs
  · cases d.sortOrder with
    | ascendingOrder => apply List.perm_insertionSort
    | descendingOrder => apply List.perm_insertionSort
  · cases d.sortOrder with
    | ascendingOrder => apply List.perm_insertionSort
    | descendingOrder => apply List.perm_insertionSort

/-- A mapping that is built anew. -/
theorem valid_build_zero (h : l.Nodup) (hlt : ∀ a ∈ l, a < s.length) (c : List Change) :
  Valid ⟨buildSourceToProxyMapping l s 0, l, c⟩
  := by
  have hbuild : buildSourceToProxyMapping l s 0
      = buildSourceToProxyMapping l (List.replicate s.length none) 0 := by
    rw [buildSourceToProxyMapping, buildSourceToProxyMapping, if_pos rfl, if_pos rfl,
      List.map_const', List.map_const', List.length_replicate]
  rw [hbuild]
  apply valid_build h
  · intro a ha
    rw [List.length_replicate]
    apply hlt a ha
  · intro item i hitem
    rw [List.take_zero, List.getElem?_replicate]
    split_ifs
    · simp
    · simp

theorem valid_createMapping (d : QSortFilterProxyModelPrivate) (accepts : ℕ → Bool) (count : ℕ) :
  (d.createMapping accepts count).Valid
  := by
  apply valid_build_zero
  · rw [sortSourceRows_perm.nodup_iff]
    apply List.nodup_range.filter
  · intro a ha
    have hrange := List.mem_of_mem_filter (sortSourceRows_perm.mem_iff.mp ha)
    rw [List.length_replicate]
    exact List.mem_range.mp hrange

end Mapping
