import BobUI.Corelib.ItemModels.ProxyMapping

/-!
# The signals of a proxy

A view holds the rows of a proxy and follows its signals.  The intervals of the items to remove, and
of the items to insert, are computed for the list as it is before any change; as the changes are
made from the back, every signal is valid for the list at its moment.
-/

open QSortFilterProxyModelPrivate ListEdits

/-- What a view makes of a signal; `none` if the list does not have the interval. -/
def applyChange (view : List ℕ) : Change → Option (List ℕ)
  | .removed first last =>
    if first ≤ last ∧ last < view.length then some (view.take first ++ view.drop (last + 1))
    else none
  | .inserted first last items =>
    if first ≤ last ∧ first ≤ view.length ∧ items.length = last + 1 - first then
      some (view.take first ++ items ++ view.drop first)
    else none

namespace Mapping

/-- The rows that the proxy has under the parent; it has none under one that is filtered out. -/
def shown (m : Mapping) (filtered : Bool) : List ℕ :=
  if filtered then [] else m.proxyToSource

/-- The signals that are emitted between two mappings lead a view from the one to the other. -/
def Announced (filtered : Bool) (m m' : Mapping) : Prop :=
  ∃ changes, m'.changes = m.changes ++ changes
    ∧ changes.foldlM applyChange (m.shown filtered) = some (m'.shown filtered)

variable {m m' m'' : Mapping} {filtered : Bool} {first last start : ℕ} {items l : List ℕ}
  {s : List (Option ℕ)}

theorem Announced.refl :
  Announced filtered m m
  := ⟨[], (List.append_nil _).symm, rfl⟩

theorem Announced.trans (h : Announced filtered m m') (h' : Announced filtered m' m'') :
  Announced filtered m m''
  := by
  obtain ⟨c, hc, hview⟩ := h
  obtain ⟨c', hc', hview'⟩ := h'
  use c ++ c'
  rw [hc', hc, List.append_assoc, List.foldlM_append, hview]
  exact ⟨rfl, hview'⟩

theorem announced_removeProxyInterval (hle : first ≤ last) (hlt : last < m.proxyToSource.length) :
  Announced false m (removeProxyInterval m first last true)
  := by
  refine ⟨[.removed first last], rfl, ?_⟩
  rw [List.foldlM_cons]
  change (applyChange m.proxyToSource _ >>= _) = _
  rw [applyChange, if_pos ⟨hle, hlt⟩]
  rfl

theorem announced_insertProxyInterval (hstart : start ≤ m.proxyToSource.length)
    (hitems : items ≠ []) :
  Announced false m (insertProxyInterval m start items true)
  := by
  have hpos := List.length_pos_iff.mpr hitems
  have htake : (m.proxyToSource.take start).length = start := by
    rw [List.length_take, Nat.min_eq_left hstart]
  have hblock : ((m.proxyToSource.take start ++ items ++ m.proxyToSource.drop start).take
      (start + items.length - 1 + 1)).drop start = items := by
    rw [Nat.sub_add_cancel (by omega), List.take_left' (by rw [List.length_append, htake]),
      List.drop_left' htake]
  refine ⟨[.inserted start (start + items.length - 1) items], ?_, ?_⟩
  · rw [insertProxyInterval]
    dsimp only
    rw [hblock, if_pos rfl]
  · rw [List.foldlM_cons]
    change (applyChange m.proxyToSource _ >>= _) = _
    rw [applyChange, if_pos (by omega)]
    rfl

/-! ### Removing -/

/-- The positions of an interval. -/
def positions (interval : ℕ × ℕ) : List ℕ :=
  List.range' interval.1 (interval.2 + 1 - interval.1)

theorem mem_positions {interval : ℕ × ℕ} {i : ℕ} :
  i ∈ positions interval ↔ interval.1 ≤ i ∧ i ≤ interval.2
  := by
  rw [positions, List.mem_range'_1]
  omega

theorem positions_append {a b c : ℕ} (h : a ≤ b + 1) (h' : b ≤ c) :
  positions (a, b) ++ positions (b + 1, c) = positions (a, c)
  := by
  rw [positions, positions, positions]
  have happend := @List.range'_append_1 a (b + 1 - a) (c + 1 - (b + 1))
  rw [Nat.add_sub_cancel' h] at happend
  rw [happend]
  congr 1
  omega

/-- The intervals have the positions of the items, in their order. -/
theorem flatMap_intervalsFrom (h : first ≤ last) :
  (intervalsFrom s first last items).flatMap positions
    = positions (first, last) ++ items.map (proxyItem s)
  := by
  induction items generalizing first last with
  | nil => simp [intervalsFrom]
  | cons a items ih =>
    rw [intervalsFrom]
    split_ifs with hnext
    · rw [ih (by omega), ← positions_append (b := last) (by omega) (by omega), List.map_cons,
        hnext]
      simp [positions]
    · rw [List.flatMap_cons, ih (le_refl _), List.map_cons]
      simp [positions]

theorem le_of_mem_intervalsFrom (h : first ≤ last) :
  ∀ interval ∈ intervalsFrom s first last items, interval.1 ≤ interval.2
  := by
  induction items generalizing first last with
  | nil =>
    intro interval hinterval
    rw [List.mem_singleton.mp hinterval]
    apply h
  | cons a items ih =>
    rw [intervalsFrom]
    split_ifs with hnext
    · apply ih (by omega)
    · rw [List.forall_mem_cons]
      exact ⟨h, ih (le_refl _)⟩

instance : Std.Total PairLE where
  total a b := by
    rw [PairLE, PairLE]
    omega

instance : IsTrans (ℕ × ℕ) PairLE where
  trans a b c h h' := by
    rw [PairLE] at h h' ⊢
    omega

variable {intervals : List (ℕ × ℕ)} {interval : ℕ × ℕ}

theorem flatMap_consolidate (hle : interval.1 ≤ interval.2)
    (h : ∀ a ∈ intervals, a.1 ≤ a.2) :
  (consolidate interval intervals).flatMap positions
    = positions interval ++ intervals.flatMap positions
  := by
  cases intervals with
  | nil => simp [consolidate]
  | cons next intervals =>
    have hnext := h next List.mem_cons_self
    rw [consolidate]
    split_ifs with hadjacent
    · obtain ⟨a, b⟩ := interval
      obtain ⟨c, e⟩ := next
      dsimp only at *
      subst hadjacent
      rw [List.flatMap_cons, List.flatMap_cons, ← List.append_assoc,
        positions_append (by omega) (by omega)]
    · rw [List.flatMap_cons]

theorem le_of_mem_consolidate (hle : interval.1 ≤ interval.2)
    (h : ∀ a ∈ intervals, a.1 ≤ a.2) (hlt : ∀ a ∈ intervals, interval.2 < a.1) :
  ∀ a ∈ consolidate interval intervals, a.1 ≤ a.2
  := by
  cases intervals with
  | nil =>
    intro a ha
    rw [List.mem_singleton.mp ha]
    apply hle
  | cons next intervals =>
    rw [List.forall_mem_cons] at h hlt
    rw [consolidate]
    split_ifs with hadjacent
    · rw [List.forall_mem_cons]
      refine ⟨?_, h.2⟩
      dsimp only
      omega
    · rw [List.forall_mem_cons, List.forall_mem_cons]
      exact ⟨hle, h⟩

theorem pairwise_consolidate (h : intervals.Pairwise fun a b => a.2 < b.1)
    (hlt : ∀ a ∈ intervals, interval.2 < a.1) :
  (consolidate interval intervals).Pairwise fun a b => a.2 < b.1
  := by
  cases intervals with
  | nil => exact List.pairwise_singleton _ _
  | cons next intervals =>
    rw [consolidate]
    split_ifs with hadjacent
    · rw [List.pairwise_cons] at h ⊢
      exact h
    · rw [List.pairwise_cons]
      exact ⟨hlt, h⟩

/-- Consolidating keeps intervals that follow each other. -/
theorem consolidated (hle : ∀ a ∈ intervals, a.1 ≤ a.2)
    (h : intervals.Pairwise fun a b => a.2 < b.1) :
  (∀ a ∈ intervals.foldr consolidate [], a.1 ≤ a.2)
    ∧ (intervals.foldr consolidate []).Pairwise (fun a b => a.2 < b.1)
    ∧ (intervals.foldr consolidate []).flatMap positions = intervals.flatMap positions
  := by
  induction intervals with
  | nil => exact ⟨by simp, List.Pairwise.nil, rfl⟩
  | cons interval intervals ih =>
    rw [List.forall_mem_cons] at hle
    rw [List.pairwise_cons] at h
    obtain ⟨hrest, hpairwise, hflatMap⟩ := ih hle.2 h.2
    have hlt : ∀ a ∈ intervals.foldr consolidate [], interval.2 < a.1 := by
      intro a ha
      have hmem : a.1 ∈ (intervals.foldr consolidate []).flatMap positions :=
        List.mem_flatMap.mpr ⟨a, ha, mem_positions.mpr ⟨le_refl _, hrest a ha⟩⟩
      rw [hflatMap, List.mem_flatMap] at hmem
      obtain ⟨b, hb, hposition⟩ := hmem
      exact (h.1 b hb).trans_le (mem_positions.mp hposition).1
    rw [List.foldr_cons]
    use le_of_mem_consolidate hle.1 hrest hlt, pairwise_consolidate hpairwise hlt
    rw [flatMap_consolidate hle.1 hrest, hflatMap, List.flatMap_cons]

/-- Intervals in order whose positions are different follow each other. -/
theorem pairwise_of_sorted (hle : ∀ a ∈ intervals, a.1 ≤ a.2) (h : intervals.Pairwise PairLE)
    (hnodup : (intervals.flatMap positions).Nodup) :
  intervals.Pairwise fun a b => a.2 < b.1
  := by
  have hdisjoint := (List.nodup_flatMap.mp hnodup).2
  apply (h.and hdisjoint).imp_of_mem
  rintro a b ha hb ⟨hab, hapart⟩
  rw [PairLE] at hab
  by_contra hnot
  apply hapart (a := b.1)
  · rw [mem_positions]
    omega
  · exact mem_positions.mpr ⟨le_refl _, hle b hb⟩

/-- The intervals have the positions of the items. -/
theorem flatMap_proxyIntervals (hnodup : (items.map (proxyItem s)).Nodup) :
  (∀ a ∈ proxyIntervalsForSourceItems s items, a.1 ≤ a.2)
    ∧ (proxyIntervalsForSourceItems s items).Pairwise (fun a b => a.2 < b.1)
    ∧ ((proxyIntervalsForSourceItems s items).flatMap positions).Perm (items.map (proxyItem s))
  := by
  cases items with
  | nil => exact ⟨by simp [proxyIntervalsForSourceItems], List.Pairwise.nil, List.Perm.refl _⟩
  | cons a items =>
    have hflatMap : (intervalsFrom s (proxyItem s a) (proxyItem s a) items).flatMap positions
        = _ := flatMap_intervalsFrom (le_refl (proxyItem s a))
    have hle : ∀ b ∈ intervalsFrom s (proxyItem s a) (proxyItem s a) items, b.1 ≤ b.2 :=
      le_of_mem_intervalsFrom (le_refl (proxyItem s a))
    rw [show positions (proxyItem s a, proxyItem s a) = [proxyItem s a] by simp [positions],
      List.singleton_append, ← List.map_cons] at hflatMap
    have hsort := List.perm_insertionSort PairLE
      (intervalsFrom s (proxyItem s a) (proxyItem s a) items)
    have hsorted := List.pairwise_insertionSort PairLE
      (intervalsFrom s (proxyItem s a) (proxyItem s a) items)
    have hperm := hsort.flatMap_right positions
    rw [hflatMap] at hperm
    have hle' := fun b hb => hle b (hsort.mem_iff.mp hb)
    obtain ⟨hrest, hpairwise, heq⟩ :=
      consolidated hle' (pairwise_of_sorted hle' hsorted (hperm.nodup_iff.mpr hnodup))
    rw [proxyIntervalsForSourceItems]
    exact ⟨hrest, hpairwise, heq ▸ hperm⟩

theorem Valid.proxyItem_eq_iff (h : m.Valid) {a i : ℕ} (ha : a ∈ m.proxyToSource) :
  proxyItem m.sourceToProxy a = i ↔ m.proxyToSource[i]? = some a
  := by
  constructor
  · rintro rfl
    obtain ⟨j, hj⟩ := List.mem_iff_getElem?.mp ha
    rw [h.proxyItem_eq hj]
    exact hj
  · apply h.proxyItem_eq

/-- The intervals of items that the mapping has follow each other and cover these items. -/
theorem Valid.proxyIntervals (h : m.Valid) (hnodup : items.Nodup)
    (hitems : ∀ a ∈ items, a ∈ m.proxyToSource) :
  Ascending (proxyIntervalsForSourceItems m.sourceToProxy items) m.proxyToSource.length
    ∧ ∀ i, (∃ interval ∈ proxyIntervalsForSourceItems m.sourceToProxy items,
      interval.1 ≤ i ∧ i ≤ interval.2) ↔ ∃ a ∈ items, m.proxyToSource[i]? = some a
  := by
  have hmap : (items.map (proxyItem m.sourceToProxy)).Nodup := by
    apply hnodup.map_on
    intro a ha b hb hab
    have hi := (h.proxyItem_eq_iff (hitems a ha)).mp hab
    rw [(h.proxyItem_eq_iff (hitems b hb)).mp rfl] at hi
    exact (Option.some_inj.mp hi).symm
  obtain ⟨hle, hpairwise, hperm⟩ := flatMap_proxyIntervals hmap
  have hcover : ∀ i, (∃ interval ∈ proxyIntervalsForSourceItems m.sourceToProxy items,
      interval.1 ≤ i ∧ i ≤ interval.2) ↔ ∃ a ∈ items, m.proxyToSource[i]? = some a := by
    intro i
    have hmem := hperm.mem_iff (a := i)
    simp only [List.mem_flatMap, mem_positions, List.mem_map] at hmem
    rw [hmem]
    constructor
    · rintro ⟨a, ha, hi⟩
      exact ⟨a, ha, (h.proxyItem_eq_iff (hitems a ha)).mp hi⟩
    · rintro ⟨a, ha, hi⟩
      exact ⟨a, ha, (h.proxyItem_eq_iff (hitems a ha)).mpr hi⟩
  refine ⟨⟨hle, ?_, hpairwise⟩, hcover⟩
  intro interval hinterval
  obtain ⟨a, -, ha⟩ := (hcover interval.2).mp ⟨interval, hinterval, hle _ hinterval, le_refl _⟩
  exact (List.getElem?_eq_some_iff.mp ha).1

/-- The intervals are removed from the back. -/
theorem removeIntervals (h : m.Valid) (hintervals : Ascending intervals m.proxyToSource.length) :
  let m' := intervals.foldr (fun interval m => removeProxyInterval m interval.1 interval.2 true) m
  m'.Valid ∧ m'.proxyToSource = cutAll intervals m.proxyToSource
    ∧ m'.sourceToProxy.length = m.sourceToProxy.length ∧ Announced false m m'
  := by
  induction intervals with
  | nil => exact ⟨h, rfl, rfl, Announced.refl⟩
  | cons interval intervals ih =>
    obtain ⟨hvalid, hlist, hlength, hannounced⟩ := ih hintervals.tail
    have hle := hintervals.le interval List.mem_cons_self
    have hlt := hintervals.lt interval List.mem_cons_self
    have hbehind := (List.pairwise_cons.mp hintervals.pairwise).1
    have htake := cutAll_take hbehind hlt
    have hlt' : interval.2 < (cutAll intervals m.proxyToSource).length := by
      have hlengths := congrArg List.length htake
      rw [List.length_take, List.length_take] at hlengths
      omega
    rw [← hlist] at hlt'
    rw [List.foldr_cons]
    refine ⟨hvalid.removeProxyInterval hle hlt', ?_, ?_, ?_⟩
    · change cut _ interval.1 interval.2 = cut _ _ _
      rw [hlist]
      rfl
    · rw [length_removeProxyInterval, hlength]
    · apply hannounced.trans (announced_removeProxyInterval hle hlt')

/-- The items are removed, and the signals tell so. -/
theorem Valid.removeSourceItems (h : m.Valid) (hnodup : items.Nodup)
    (hitems : ∀ a ∈ items, a ∈ m.proxyToSource) :
  let m' := removeSourceItems m items false true
  m'.Valid ∧ m'.proxyToSource = m.proxyToSource.filter (· ∉ items)
    ∧ m'.sourceToProxy.length = m.sourceToProxy.length ∧ Announced false m m'
  := by
  obtain ⟨hascending, hcover⟩ := h.proxyIntervals hnodup hitems
  obtain ⟨hvalid, hlist, hlength, hannounced⟩ := removeIntervals h hascending
  refine ⟨hvalid, ?_, hlength, hannounced⟩
  rw [cutAll_eq_pick hascending] at hlist
  apply hlist.trans
  apply pick_eq_filter
  intro i a hi
  rw [Nat.zero_add, Bool.eq_iff_iff, outside_eq_true_iff, decide_eq_true_iff]
  have hposition := hcover i
  rw [hi] at hposition
  constructor
  · intro hall ha
    obtain ⟨interval, hinterval, hfirst, hlast⟩ := hposition.mpr ⟨a, ha, rfl⟩
    have houtside := hall interval hinterval
    omega
  · intro hnot interval hinterval
    by_contra hinside
    obtain ⟨b, hb, hab⟩ := hposition.mp ⟨interval, hinterval, by omega⟩
    rw [Option.some_inj.mp hab] at hnot
    exact hnot hb

/-! ### Inserting -/

variable {before : ℕ → ℕ → Bool} {low high item : ℕ} {blocks : List (ℕ × List ℕ)}

theorem searchProxyItem_mem (h : low ≤ high) :
  low ≤ searchProxyItem before l item low high ∧ searchProxyItem before l item low high ≤ high
  := by
  induction low, high using searchProxyItem.induct before l item with
  | case1 low high hlt proxyItem hbefore ih =>
    obtain ⟨hlow, hhigh⟩ := ih (by omega)
    rw [searchProxyItem, dif_pos hlt, if_pos hbefore]
    exact ⟨hlow, hhigh.trans (by omega)⟩
  | case2 low high hlt proxyItem hbefore ih =>
    obtain ⟨hlow, hhigh⟩ := ih (by omega)
    rw [searchProxyItem, dif_pos hlt, if_neg hbefore]
    exact ⟨le_trans (by omega) hlow, hhigh⟩
  | case3 low high hnot =>
    rw [searchProxyItem, dif_neg hnot]
    omega

/-- Blocks to insert into a list of length `n`, from a position on. -/
structure Inserts (blocks : List (ℕ × List ℕ)) (low n : ℕ) : Prop where
  nonempty : ∀ block ∈ blocks, block.2 ≠ []
  low_le : ∀ block ∈ blocks, low ≤ block.1
  le : ∀ block ∈ blocks, block.1 ≤ n
  pairwise : blocks.Pairwise fun a b => a.1 ≤ b.1

theorem Inserts.cons {n : ℕ} (h : Inserts blocks low n) (hitems : items ≠ []) (hn : low ≤ n) :
  Inserts ((low, items) :: blocks) low n
  := by
  constructor
  · rw [List.forall_mem_cons]
    exact ⟨hitems, h.nonempty⟩
  · rw [List.forall_mem_cons]
    exact ⟨le_refl _, h.low_le⟩
  · rw [List.forall_mem_cons]
    exact ⟨hn, h.le⟩
  · rw [List.pairwise_cons]
    exact ⟨h.low_le, h.pairwise⟩

theorem Inserts.mono {n : ℕ} (h : Inserts blocks low n) (hle : first ≤ low) :
  Inserts blocks first n
  := ⟨h.nonempty, fun a ha => hle.trans (h.low_le a ha), h.le, h.pairwise⟩

/-- The intervals have the items in their order. -/
theorem intervalsToAdd_spec {rest : List ℕ} (h : low ≤ l.length) (hitems : items ≠ []) :
  Inserts (intervalsToAdd before l low items rest) low l.length
    ∧ (intervalsToAdd before l low items rest).flatMap Prod.snd = items ++ rest
  := by
  induction rest generalizing low items with
  | nil =>
    rw [intervalsToAdd]
    constructor
    · apply Inserts.cons _ hitems h
      constructor <;> simp
    · simp
  | cons item rest ih =>
    rw [intervalsToAdd]
    split_ifs with hbreak
    · obtain ⟨hlow, hhigh⟩ : low ≤ searchProxyItem before l item low l.length
          ∧ searchProxyItem before l item low l.length ≤ l.length := searchProxyItem_mem h
      obtain ⟨hinserts, hflatMap⟩ := ih hhigh (List.cons_ne_nil item [])
      constructor
      · apply (hinserts.mono hlow).cons hitems h
      · rw [List.flatMap_cons, hflatMap]
        rfl
    · obtain ⟨hinserts, hflatMap⟩ :=
        ih h (List.append_ne_nil_of_right_ne_nil items (List.cons_ne_nil item []))
      use hinserts
      rw [hflatMap, List.append_assoc]
      rfl

theorem proxyIntervalsToAdd (d : QSortFilterProxyModelPrivate) (direction : Direction)
    (items l : List ℕ) :
  Inserts (d.proxyIntervalsForSourceItemsToAdd l direction items) 0 l.length
    ∧ (d.proxyIntervalsForSourceItemsToAdd l direction items).flatMap Prod.snd = items
  := by
  cases items with
  | nil =>
    constructor
    · constructor <;> simp [proxyIntervalsForSourceItemsToAdd]
    · rfl
  | cons item items =>
    have hhigh : searchProxyItem (d.placedBefore direction) l item 0 l.length ≤ l.length :=
      (searchProxyItem_mem (Nat.zero_le l.length)).2
    obtain ⟨hinserts, hflatMap⟩ := intervalsToAdd_spec hhigh (List.cons_ne_nil item [])
    exact ⟨hinserts.mono (Nat.zero_le _), hflatMap⟩

/-- The intervals are inserted from the back. -/
theorem insertIntervals (h : m.Valid) {n : ℕ} (hblocks : Inserts blocks n m.proxyToSource.length)
    (hnodup : (blocks.flatMap Prod.snd).Nodup)
    (hlt : ∀ a ∈ blocks.flatMap Prod.snd, a < m.sourceToProxy.length)
    (hnew : ∀ a ∈ blocks.flatMap Prod.snd, a ∉ m.proxyToSource) :
  let m' := blocks.foldr (fun block m => insertProxyInterval m block.1 block.2 true) m
  m'.Valid ∧ m'.proxyToSource = spliceAll blocks m.proxyToSource
    ∧ m'.sourceToProxy.length = m.sourceToProxy.length ∧ Announced false m m'
  := by
  induction blocks with
  | nil => exact ⟨h, rfl, rfl, Announced.refl⟩
  | cons block blocks ih =>
    rw [List.flatMap_cons] at hnodup hlt hnew
    rw [List.forall_mem_append] at hlt hnew
    obtain ⟨hblock, hrest, hapart⟩ := List.nodup_append.mp hnodup
    have htail : Inserts blocks n m.proxyToSource.length :=
      ⟨fun a ha => hblocks.nonempty a (List.mem_cons_of_mem _ ha),
        fun a ha => hblocks.low_le a (List.mem_cons_of_mem _ ha),
        fun a ha => hblocks.le a (List.mem_cons_of_mem _ ha), hblocks.pairwise.of_cons⟩
    obtain ⟨hvalid, hlist, hlength, hannounced⟩ := ih htail hrest hlt.2 hnew.2
    have hstart : block.1 ≤ (spliceAll blocks m.proxyToSource).length :=
      (hblocks.le block List.mem_cons_self).trans sublist_spliceAll.length_le
    have hfresh : ∀ a ∈ block.2, a ∉ spliceAll blocks m.proxyToSource := by
      intro a ha hmem
      rcases List.mem_append.mp (spliceAll_perm.mem_iff.mp hmem) with hmem | hmem
      · exact hapart a ha a hmem rfl
      · exact hnew.1 a ha hmem
    rw [← hlist] at hstart hfresh
    rw [← hlength] at hlt
    rw [List.foldr_cons]
    refine ⟨hvalid.insertProxyInterval hstart hblock hlt.1 hfresh, ?_, ?_, ?_⟩
    · change splice _ block.1 block.2 = splice _ _ _
      rw [hlist]
      rfl
    · rw [length_insertProxyInterval, hlength]
    · apply hannounced.trans
        (announced_insertProxyInterval hstart (hblocks.nonempty block List.mem_cons_self))

/-- The items are inserted, and the signals tell so. -/
theorem Valid.insertSourceItems (h : m.Valid) (d : QSortFilterProxyModelPrivate)
    (direction : Direction) (hnodup : items.Nodup)
    (hlt : ∀ a ∈ items, a < m.sourceToProxy.length) (hnew : ∀ a ∈ items, a ∉ m.proxyToSource) :
  let m' := d.insertSourceItems m items direction false true
  m'.Valid
    ∧ m'.proxyToSource
      = spliceAll (d.proxyIntervalsForSourceItemsToAdd m.proxyToSource direction items)
        m.proxyToSource
    ∧ m'.sourceToProxy.length = m.sourceToProxy.length ∧ Announced false m m'
  := by
  obtain ⟨hinserts, hflatMap⟩ :=
    proxyIntervalsToAdd d direction items m.proxyToSource
  rw [← hflatMap] at hnodup hlt hnew
  apply insertIntervals h hinserts hnodup hlt hnew

/-! ### Both -/

/-- What a view is told about the items that are removed. -/
structure DescribesRemoval (m : Mapping) (items : List ℕ) (filtered : Bool) : Prop where
  disjoint : Ascending (proxyIntervalsForSourceItems m.sourceToProxy items) m.proxyToSource.length
  cover : ∀ i, (∃ interval ∈ proxyIntervalsForSourceItems m.sourceToProxy items,
    interval.1 ≤ i ∧ i ≤ interval.2) ↔ ∃ a ∈ items, m.proxyToSource[i]? = some a
  announced : Announced filtered m (QSortFilterProxyModelPrivate.removeSourceItems m items filtered
    true)
  shown : (QSortFilterProxyModelPrivate.removeSourceItems m items filtered true).shown filtered
    = (m.shown filtered).filter (· ∉ items)

/-- What a view is told about the items that are inserted. -/
structure DescribesInsertion (d : QSortFilterProxyModelPrivate) (direction : Direction)
    (m : Mapping) (items : List ℕ) (filtered : Bool) : Prop where
  inserts : Inserts (d.proxyIntervalsForSourceItemsToAdd m.proxyToSource direction items) 0
    m.proxyToSource.length
  cover : (d.proxyIntervalsForSourceItemsToAdd m.proxyToSource direction items).flatMap Prod.snd
    = items
  disjoint : (d.proxyIntervalsForSourceItemsToAdd m.proxyToSource direction items).Pairwise
    fun a b => a.2.Disjoint b.2
  announced : Announced filtered m (d.insertSourceItems m items direction filtered true)
  shown : ((d.insertSourceItems m items direction filtered true).shown filtered).Perm
    (if filtered then [] else items ++ m.proxyToSource)
  sublist : (m.shown filtered).Sublist
    ((d.insertSourceItems m items direction filtered true).shown filtered)

/-- The signals of a proxy describe the items that are removed and those that are inserted. -/
theorem Valid.signals_describe (h : m.Valid) (d : QSortFilterProxyModelPrivate)
    (direction : Direction) (filtered : Bool) :
  (∀ items : List ℕ, items.Nodup → (∀ a ∈ items, a ∈ m.proxyToSource) →
      DescribesRemoval m items filtered)
    ∧ ∀ items : List ℕ, items.Nodup →
      (∀ a ∈ items, a < m.sourceToProxy.length ∧ a ∉ m.proxyToSource) →
        DescribesInsertion d direction m items filtered
  := by
  constructor
  · intro items h_nodup h_items
    obtain ⟨h_ascending, h_cover⟩ := h.proxyIntervals h_nodup h_items
    use h_ascending, h_cover
    · cases filtered with
      | true => exact ⟨[], (List.append_nil _).symm, rfl⟩
      | false => exact (h.removeSourceItems h_nodup h_items).2.2.2
    · cases filtered with
      | true => rfl
      | false => exact (h.removeSourceItems h_nodup h_items).2.1
  · intro items h_nodup h_items
    obtain ⟨h_inserts, h_flatMap⟩ :=
      proxyIntervalsToAdd d direction items m.proxyToSource
    obtain ⟨-, h_list, -, h_announced⟩ := h.insertSourceItems d direction
      h_nodup (fun a h_a => (h_items a h_a).1) (fun a h_a => (h_items a h_a).2)
    have h_perm : (spliceAll (d.proxyIntervalsForSourceItemsToAdd m.proxyToSource direction items)
        m.proxyToSource).Perm _ := spliceAll_perm
    rw [← h_list, h_flatMap] at h_perm
    have h_disjoint := h_nodup
    rw [← h_flatMap, List.nodup_flatMap] at h_disjoint
    use h_inserts, h_flatMap, h_disjoint.2
    · cases filtered with
      | true => exact Announced.refl
      | false => exact h_announced
    · cases filtered with
      | true => exact List.Perm.refl []
      | false => exact h_perm
    · cases filtered with
      | true => exact List.Sublist.refl []
      | false =>
        change m.proxyToSource.Sublist
          (d.insertSourceItems m items direction false true).proxyToSource
        rw [h_list]
        apply sublist_spliceAll

theorem signals_describe_even_rows :
  (createMapping ⟨-1, .ascendingOrder, true, fun _ _ => false⟩ (· % 2 = 0) 6).Valid
    ∧ DescribesRemoval (createMapping ⟨-1, .ascendingOrder, true, fun _ _ => false⟩ (· % 2 = 0) 6)
      [4, 0] false
    ∧ DescribesInsertion ⟨-1, .ascendingOrder, true, fun _ _ => false⟩ .rows
      (createMapping ⟨-1, .ascendingOrder, true, fun _ _ => false⟩ (· % 2 = 0) 6) [1, 5] false
  := by
  have h_valid := valid_createMapping ⟨-1, .ascendingOrder, true, fun _ _ => false⟩ (· % 2 = 0) 6
  have h_describe := h_valid.signals_describe ⟨-1, .ascendingOrder, true, fun _ _ => false⟩ .rows
    false
  exact ⟨h_valid, h_describe.1 [4, 0] (by decide) (by decide),
    h_describe.2 [1, 5] (by decide) (by decide)⟩

end Mapping
