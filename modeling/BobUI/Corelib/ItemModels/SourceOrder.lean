import BobUI.Corelib.ItemModels.ProxySignals

/-!
# A proxy without a sort column

Such a proxy shows the rows in the order of the source, or in the opposite order.  A full sort
respects the sort order, but the place of new rows is searched as if the order were ascending: rows
that are added to others are never in the right place if the order is descending.
-/

open QSortFilterProxyModelPrivate ListEdits

/-! ### Searching in the order of the source -/

namespace SourceOrder

/-- The comparison without a sort column. -/
def less (a b : ℕ) : Bool :=
  a < b

variable {l items rest : List ℕ} {low high item : ℕ}

theorem lt_of_getElem? {R : ℕ → ℕ → Prop} (h : l.Pairwise R) {i j a b : ℕ} (hi : l[i]? = some a)
    (hj : l[j]? = some b) (hij : i < j) :
  R a b
  := by
  obtain ⟨hi', rfl⟩ := List.getElem?_eq_some_iff.mp hi
  obtain ⟨hj', rfl⟩ := List.getElem?_eq_some_iff.mp hj
  exact List.pairwise_iff_getElem.mp h i j hi' hj' hij

theorem getElem?_eq_getD {i : ℕ} (h : i < l.length) :
  l[i]? = some (l.getD i 0)
  := by
  rw [List.getD_eq_getElem?_getD, List.getElem?_eq_getElem h]
  rfl

/-- An item is placed between the smaller and the greater ones. -/
structure Splits (l : List ℕ) (item low high : ℕ) : Prop where
  lt : ∀ i a : ℕ, l[i]? = some a → i < low → a < item
  gt : ∀ i a : ℕ, l[i]? = some a → high ≤ i → item < a

theorem splits_search (h : l.Pairwise (· < ·)) (hitem : item ∉ l) (hhigh : high ≤ l.length)
    (hle : low ≤ high) (hsplits : Splits l item low high) :
  Splits l item (searchProxyItem less l item low high) (searchProxyItem less l item low high)
  := by
  induction low, high using searchProxyItem.induct less l item with
  | case1 low high hlt proxyItem hbefore ih =>
    have hmid : low ≤ proxyItem ∧ proxyItem < high := by omega
    have hget : l[proxyItem]? = some (l.getD proxyItem 0) := by
      apply getElem?_eq_getD
      omega
    rw [searchProxyItem, dif_pos hlt, if_pos hbefore]
    apply ih (by omega) hmid.1
    use hsplits.lt
    intro i a hi hmid_i
    have hfirst : item < l.getD proxyItem 0 := of_decide_eq_true hbefore
    rcases Nat.eq_or_lt_of_le hmid_i with rfl | hlt_i
    · rw [hget, Option.some_inj] at hi
      rw [← hi]
      exact hfirst
    · exact hfirst.trans (lt_of_getElem? h hget hi hlt_i)
  | case2 low high hlt proxyItem hbefore ih =>
    have hmid : low ≤ proxyItem ∧ proxyItem < high := by omega
    have hget : l[proxyItem]? = some (l.getD proxyItem 0) := by
      apply getElem?_eq_getD
      omega
    rw [searchProxyItem, dif_pos hlt, if_neg hbefore]
    apply ih hhigh (by omega)
    refine ⟨?_, hsplits.gt⟩
    intro i a hi hi_mid
    have hnot : ¬item < l.getD proxyItem 0 := of_decide_eq_false (Bool.not_eq_true _ ▸ hbefore)
    have hne : l.getD proxyItem 0 ≠ item := by
      intro heq
      rw [heq] at hget
      exact hitem (List.mem_of_getElem? hget)
    rcases Nat.eq_or_lt_of_le (Nat.le_of_lt_succ hi_mid) with rfl | hlt_i
    · rw [hget, Option.some_inj] at hi
      omega
    · have hless := lt_of_getElem? h hi hget hlt_i
      omega
  | case3 low high hnot =>
    rw [searchProxyItem, dif_neg hnot]
    rw [show high = low by omega] at hsplits
    exact hsplits

theorem Splits.before (h : Splits l item low high) (hitems : (item :: rest).Pairwise (· < ·)) :
  ∀ a ∈ l.take low, ∀ b ∈ item :: rest, a < b
  := by
  intro a ha b hb
  obtain ⟨i, hi⟩ := List.mem_iff_getElem?.mp ha
  rw [List.getElem?_take] at hi
  split_ifs at hi with hlt
  have hitem := h.lt i a hi hlt
  rcases List.mem_cons.mp hb with rfl | hb
  · exact hitem
  · exact hitem.trans ((List.pairwise_cons.mp hitems).1 b hb)

theorem Splits.behind (h : Splits l item low high) :
  ∀ b ∈ [item], ∀ c ∈ l.drop high, b < c
  := by
  intro b hb c hc
  rw [List.mem_singleton.mp hb]
  obtain ⟨i, hi⟩ := List.mem_iff_getElem?.mp hc
  rw [List.getElem?_drop] at hi
  exact h.gt _ c hi (Nat.le_add_right _ _)

/-- New items are merged with the list behind `low`. -/
theorem intervalsToAdd_merges (h : l.Pairwise (· < ·)) (hlow : low ≤ l.length)
    (hitems : (items ++ rest).Pairwise (· < ·)) (hnew : ∀ a ∈ items ++ rest, a ∉ l)
    (hfront : ∀ a ∈ l.take low, ∀ b ∈ items ++ rest, a < b)
    (hback : ∀ b ∈ items, ∀ c ∈ l.drop low, b < c) :
  ∃ t, spliceAll (intervalsToAdd less l low items rest) l = l.take low ++ t
    ∧ t.Pairwise (· < ·) ∧ ∀ a ∈ t, a ∈ items ++ rest ∨ a ∈ l.drop low
  := by
  induction rest generalizing low items with
  | nil =>
    use items ++ l.drop low
    rw [List.append_nil] at hitems ⊢
    constructor
    · change splice l low items = _
      rw [splice, List.append_assoc]
    · rw [List.pairwise_append]
      exact ⟨⟨hitems, h.sublist (List.drop_sublist low l), hback⟩, fun a => List.mem_append.mp⟩
  | cons item rest ih =>
    rw [intervalsToAdd]
    split_ifs with hbreak
    · have hsplits : Splits l item low l.length := by
        constructor
        · intro i a hi hlt
          apply hfront a _ item (by simp)
          apply List.mem_of_getElem? (i := i)
          rw [List.getElem?_take, if_pos hlt, hi]
        · intro i a hi hge
          exact absurd (List.getElem?_eq_some_iff.mp hi).1 (Nat.not_lt_of_ge hge)
      obtain ⟨hle, hhigh⟩ : low ≤ searchProxyItem less l item low l.length
          ∧ searchProxyItem less l item low l.length ≤ l.length :=
        Mapping.searchProxyItem_mem hlow
      have hplace := splits_search h (hnew item (by simp)) (le_refl _) hlow hsplits
      generalize searchProxyItem less l item low l.length = place at *
      obtain ⟨hsorted, hrest, hless⟩ := List.pairwise_append.mp hitems
      have hbefore := hplace.before hrest
      have hbehind := hplace.behind
      obtain ⟨t, heq, ht, hmem⟩ := ih hhigh hrest
        (fun a ha => hnew a (List.mem_append_right items ha)) hbefore hbehind
      have hlength : (l.take place).length = place := by
        rw [List.length_take, Nat.min_eq_left hhigh]
      use items ++ ((l.take place).drop low ++ t)
      have hmiddle : ∀ a ∈ (l.take place).drop low, a ∈ l.take place ∧ a ∈ l.drop low := by
        intro a ha
        use List.mem_of_mem_drop ha
        rw [List.drop_take] at ha
        exact List.mem_of_mem_take ha
      have hdrop : ∀ a ∈ l.drop place, a ∈ l.drop low :=
        (List.drop_sublist_drop_left l hle).subset
      refine ⟨?_, ?_, ?_⟩
      · change splice (spliceAll _ l) low items = _
        rw [heq, splice, List.take_append_of_le_length (by omega), List.take_take,
          Nat.min_eq_left hle, List.drop_append_of_le_length (by omega), List.append_assoc]
      · rw [List.pairwise_append, List.pairwise_append]
        refine ⟨hsorted, ⟨?_, ht, ?_⟩, ?_⟩
        · apply h.sublist ((List.drop_sublist low _).trans (List.take_sublist place l))
        · intro a ha b hb
          obtain ⟨ha, -⟩ := hmiddle a ha
          rcases hmem b hb with hb | hb
          · exact hbefore a ha b hb
          · rw [← List.take_append_drop place l, List.pairwise_append] at h
            exact h.2.2 a ha b hb
        · intro a ha b hb
          rcases List.mem_append.mp hb with hb | hb
          · exact hback a ha b (hmiddle b hb).2
          · rcases hmem b hb with hb | hb
            · exact hless a ha b hb
            · exact hback a ha b (hdrop b hb)
      · intro a ha
        rcases List.mem_append.mp ha with ha | ha
        · exact Or.inl (List.mem_append_left _ ha)
        · rcases List.mem_append.mp ha with ha | ha
          · exact Or.inr (hmiddle a ha).2
          · exact (hmem a ha).imp (List.mem_append_right items) (hdrop a)
    · have hlist : items ++ item :: rest = (items ++ [item]) ++ rest := List.append_cons ..
      rw [hlist] at hitems hnew hfront ⊢
      apply ih hlow hitems hnew hfront
      rw [List.forall_mem_append, List.forall_mem_singleton]
      use hback
      intro c hc
      obtain ⟨i, hi⟩ := List.mem_iff_getElem?.mp hc
      rw [List.getElem?_drop] at hi
      have hlt : low < l.length := by
        have hbound := (List.getElem?_eq_some_iff.mp hi).1
        omega
      have hlow_i := getElem?_eq_getD hlt
      have hle : item ≤ l.getD low 0 := by
        rw [less, Bool.and_eq_true, decide_eq_true_iff, decide_eq_true_iff] at hbreak
        omega
      have hne : item ≠ l.getD low 0 := by
        rintro heq
        rw [← heq] at hlow_i
        exact hnew item (by simp) (List.mem_of_getElem? hlow_i)
      rcases Nat.eq_zero_or_pos i with rfl | hpos
      · rw [Nat.add_zero, hlow_i, Option.some_inj] at hi
        omega
      · have hless := lt_of_getElem? h hlow_i hi (by omega)
        omega

/-- Items that are inserted in ascending order are merged with the list. -/
theorem insert_ascending (h : l.Pairwise (· < ·)) (hitems : (item :: rest).Pairwise (· < ·))
    (hnew : ∀ a ∈ item :: rest, a ∉ l) :
  (spliceAll (intervalsToAdd less l (searchProxyItem less l item 0 l.length) [item] rest)
    l).Pairwise (· < ·)
  := by
  have hsplits : Splits l item 0 l.length := by
    constructor
    · intro i a hi hlt
      exact absurd hlt (Nat.not_lt_zero i)
    · intro i a hi hge
      exact absurd (List.getElem?_eq_some_iff.mp hi).1 (Nat.not_lt_of_ge hge)
  have hhigh : searchProxyItem less l item 0 l.length ≤ l.length :=
    (Mapping.searchProxyItem_mem (Nat.zero_le _)).2
  have hplace := splits_search h (hnew item List.mem_cons_self) (le_refl _) (Nat.zero_le _)
    hsplits
  generalize searchProxyItem less l item 0 l.length = place at *
  obtain ⟨t, heq, ht, hmem⟩ := intervalsToAdd_merges h hhigh hitems hnew
    (hplace.before hitems) hplace.behind
  rw [heq, List.pairwise_append]
  refine ⟨h.sublist (List.take_sublist place l), ht, ?_⟩
  intro a ha b hb
  rcases hmem b hb with hb | hb
  · exact hplace.before hitems a ha b hb
  · rw [← List.take_append_drop place l, List.pairwise_append] at h
    exact h.2.2 a ha b hb

/-! ### Searching in the opposite order -/

theorem search_of_lt (h : ∀ i, low ≤ i → i < high → item < l.getD i 0) (hle : low ≤ high) :
  searchProxyItem less l item low high = low
  := by
  induction low, high using searchProxyItem.induct less l item with
  | case1 low high hlt proxyItem hbefore ih =>
    have hmid : low ≤ proxyItem ∧ proxyItem < high := by omega
    rw [searchProxyItem, dif_pos hlt, if_pos hbefore]
    apply ih _ hmid.1
    intro i hi hi'
    apply h i hi (hi'.trans hmid.2)
  | case2 low high hlt proxyItem hbefore ih =>
    have hmid : low ≤ proxyItem ∧ proxyItem < high := by omega
    rw [less, decide_eq_true (h proxyItem hmid.1 hmid.2)] at hbefore
    contradiction
  | case3 low high hnot => rw [searchProxyItem, dif_neg hnot]

theorem search_of_not_lt (h : ∀ i, low ≤ i → i < high → ¬item < l.getD i 0) (hle : low ≤ high) :
  searchProxyItem less l item low high = high
  := by
  induction low, high using searchProxyItem.induct less l item with
  | case1 low high hlt proxyItem hbefore ih =>
    have hmid : low ≤ proxyItem ∧ proxyItem < high := by omega
    exact absurd (of_decide_eq_true hbefore) (h proxyItem hmid.1 hmid.2)
  | case2 low high hlt proxyItem hbefore ih =>
    have hmid : low ≤ proxyItem ∧ proxyItem < high := by omega
    rw [searchProxyItem, dif_pos hlt, if_neg hbefore]
    apply ih _ (by omega)
    intro i hi hi'
    apply h i (by omega) hi'
  | case3 low high hnot =>
    rw [searchProxyItem, dif_neg hnot]
    omega

/-- In a descending list the search ends in front of a greater item or behind a smaller one. -/
theorem search_descending (h : l.Pairwise (· > ·)) (hitem : item ∉ l) (hl : l ≠ []) :
  (searchProxyItem less l item 0 l.length = 0 ∧ ∃ a ∈ l, item < a)
    ∨ (searchProxyItem less l item 0 l.length = l.length ∧ ∃ a ∈ l, a < item)
  := by
  have hpos := List.length_pos_iff.mpr hl
  have hmid : (0 + (l.length - 1)) / 2 < l.length := by omega
  have hget := getElem?_eq_getD hmid
  have hmem := List.mem_of_getElem? hget
  rw [searchProxyItem, dif_pos hpos]
  dsimp only
  generalize (0 + (l.length - 1)) / 2 = mid at *
  by_cases hless : item < l.getD mid 0
  · have htrue : less item (l.getD mid 0) = true := decide_eq_true hless
    rw [if_pos htrue]
    left
    refine ⟨?_, _, hmem, hless⟩
    apply search_of_lt _ (Nat.zero_le mid)
    intro i _ hi
    have hgt := lt_of_getElem? h (getElem?_eq_getD (hi.trans hmid)) hget hi
    omega
  · have hne : l.getD mid 0 ≠ item := by
      intro heq
      exact hitem (heq ▸ hmem)
    rw [if_neg (by rw [less, decide_eq_true_iff]; exact hless)]
    right
    refine ⟨?_, _, hmem, by omega⟩
    apply search_of_not_lt _ hmid
    intro i hi hi'
    have hgt := lt_of_getElem? h hget (getElem?_eq_getD hi') (by omega)
    omega

/-- The first interval has the first items. -/
theorem intervalsToAdd_eq_cons (before : ℕ → ℕ → Bool) :
  ∃ more blocks, intervalsToAdd before l low items rest = (low, items ++ more) :: blocks
  := by
  induction rest generalizing items with
  | nil => exact ⟨[], [], by rw [intervalsToAdd, List.append_nil]⟩
  | cons item rest ih =>
    rw [intervalsToAdd]
    split_ifs with hbreak
    · exact ⟨[], _, by rw [List.append_nil]⟩
    · obtain ⟨more, blocks, heq⟩ : ∃ more blocks,
          intervalsToAdd before l low (items ++ [item]) rest
            = (low, items ++ [item] ++ more) :: blocks := ih
      use item :: more, blocks
      rw [heq, List.append_assoc]
      rfl

/-- All items are inserted at the end. -/
theorem intervalsToAdd_length (before : ℕ → ℕ → Bool) :
  intervalsToAdd before l l.length items rest = [(l.length, items ++ rest)]
  := by
  induction rest generalizing items with
  | nil => rw [intervalsToAdd, List.append_nil]
  | cons item rest ih =>
    rw [intervalsToAdd, decide_eq_false (lt_irrefl _), Bool.false_and,
      if_neg Bool.false_ne_true, ih, List.append_assoc]
    rfl

theorem splice_length :
  splice l l.length items = l ++ items
  := by
  rw [splice, List.take_length, List.drop_length, List.append_nil]

theorem insert_not_descending (h : l.Pairwise (· > ·)) (hitem : item ∉ l) (hl : l ≠ []) :
  ¬(spliceAll (intervalsToAdd less l (searchProxyItem less l item 0 l.length) [item] rest)
    l).Pairwise (· > ·)
  := by
  intro hsorted
  rcases search_descending h hitem hl with ⟨hplace, a, ha, hless⟩ | ⟨hplace, a, ha, hless⟩
  · obtain ⟨more, blocks, heq⟩ : ∃ more blocks,
        intervalsToAdd less l 0 [item] rest = (0, [item] ++ more) :: blocks :=
      intervalsToAdd_eq_cons less
    rw [hplace, heq] at hsorted
    change (splice (spliceAll blocks l) 0 (item :: more)).Pairwise (· > ·) at hsorted
    rw [splice, List.take_zero, List.nil_append, List.drop_zero, List.cons_append,
      List.pairwise_cons] at hsorted
    have hgreater :=
      hsorted.1 a (List.mem_append_right more (sublist_spliceAll.subset ha))
    omega
  · rw [hplace, intervalsToAdd_length] at hsorted
    change (splice l l.length (item :: rest)).Pairwise (· > ·) at hsorted
    rw [splice_length, List.pairwise_append] at hsorted
    have hgreater := hsorted.2.2 a ha item List.mem_cons_self
    omega

end SourceOrder

namespace Mapping

variable {d : QSortFilterProxyModelPrivate} {m : Mapping} {items : List ℕ}

/-- The order of the rows of a proxy without a sort column. -/
def Follows (order : SortOrder) (a b : ℕ) : Prop :=
  match order with
  | .ascendingOrder => a < b
  | .descendingOrder => b < a

/-- New rows are in the right place, unless the order is descending and there are rows already. -/
theorem Valid.insert_ordered_iff (h : m.Valid) (hd : d.sourceSortColumn = -1)
    (hm : m.proxyToSource.Pairwise (Follows d.sortOrder))
    (hitems : items.Pairwise (Follows d.sortOrder)) (hnodup : items.Nodup)
    (hlt : ∀ a ∈ items, a < m.sourceToProxy.length) (hnew : ∀ a ∈ items, a ∉ m.proxyToSource) :
  (d.insertSourceItems m items .rows false true).proxyToSource.Pairwise (Follows d.sortOrder)
    ↔ ¬(d.sortOrder = .descendingOrder ∧ m.proxyToSource ≠ [] ∧ items ≠ [])
  := by
  have hbefore : d.placedBefore .rows = SourceOrder.less := by
    funext a b
    rw [placedBefore, hd]
    rfl
  rw [(h.insertSourceItems d .rows hnodup hlt hnew).2.1]
  cases items with
  | nil =>
    apply iff_of_true hm
    rintro ⟨-, -, hne⟩
    exact hne rfl
  | cons item rest =>
    rw [proxyIntervalsForSourceItemsToAdd, hbefore]
    cases horder : d.sortOrder with
    | ascendingOrder =>
      rw [horder] at hm hitems
      apply iff_of_true (SourceOrder.insert_ascending hm hitems hnew)
      rintro ⟨hdesc, -⟩
      cases hdesc
    | descendingOrder =>
      rw [horder] at hm hitems
      by_cases hnil : m.proxyToSource = []
      · apply iff_of_true
        · have hplace : searchProxyItem SourceOrder.less [] item 0 0 = 0 := by
            rw [searchProxyItem, dif_neg (lt_irrefl 0)]
          have hall : intervalsToAdd SourceOrder.less [] 0 [item] rest = [(0, item :: rest)] :=
            SourceOrder.intervalsToAdd_length SourceOrder.less
          rw [hnil, List.length_nil, hplace, hall]
          change (splice [] 0 (item :: rest)).Pairwise _
          rw [splice, List.take_zero, List.drop_zero, List.nil_append, List.append_nil]
          exact hitems
        · rintro ⟨-, hne, -⟩
          exact hne hnil
      · apply iff_of_false
        · apply SourceOrder.insert_not_descending hm (hnew item List.mem_cons_self) hnil
        · intro hnot
          exact hnot ⟨rfl, hnil, List.cons_ne_nil item rest⟩

end Mapping
