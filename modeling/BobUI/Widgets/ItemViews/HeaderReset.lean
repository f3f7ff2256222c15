import BobUI.Widgets.ItemViews.HeaderRuns

/-!
# Headers of a model that is reset

`initializeSections` gives a header the number of sections that the model has: the sections beyond
it go, by visual index, and so do the indexes beyond it, by logical index.
-/

namespace QHeaderView

open IndexLists

/-! ### Sections that go -/

def removeSizes (sizes : SectionSizes) (keys : List ℕ) : SectionSizes :=
  keys.foldl (fun sizes key => sizes.erase key) sizes

/-- The sizes of hidden sections that go are removed, by one of two loops: the first one runs up to
the number of sections that there are now. -/
def trimHidden (oldCount newCount : ℕ) (d : QHeaderView) : QHeaderView :=
  let sizes := d.hiddenSectionSize
  if sizes.entries.isEmpty then d
  else if sizes.entries.length < oldCount - newCount then
    { d with hiddenSectionSize :=
        removeSizes sizes (List.range' newCount (d.sectionCount - newCount)) }
  else
    { d with hiddenSectionSize := removeSizes sizes (sizes.keys.filter (newCount ≤ ·)) }

def dropSections (newCount : ℕ) (d : QHeaderView) : Except QHeaderViewFault QHeaderView :=
  if newCount < d.sectionCount then do
    let oldCount := d.sectionCount
    let d ← d.removeSectionsFromSectionItems newCount (d.sectionCount - 1)
    pure (d.trimHidden oldCount newCount)
  else .ok d

/-- The loop for indexes of new sections, from one on for as many turns. -/
def fillIndices : ℕ → ℕ → List ℕ × List ℕ → Except QHeaderViewFault (List ℕ × List ℕ)
  | 0, _, indices => .ok indices
  | turns + 1, i, (visualIndices, logicalIndices) => do
    let logicalIndices ← store logicalIndices i i
    let visualIndices ← store visualIndices i i
    fillIndices turns (i + 1) (visualIndices, logicalIndices)

/-- The loop for the indexes that stay, from a visual index on for as many turns. -/
def keepIndices (newSectionCount : ℕ) :
    ℕ → ℕ → ℕ → List ℕ × List ℕ → Except QHeaderViewFault (List ℕ × List ℕ)
  | 0, _, _, indices => .ok indices
  | turns + 1, i, j, (visualIndices, logicalIndices) => do
    let v ← fetch logicalIndices i
    if v < newSectionCount then do
      let logicalIndices ← store logicalIndices j v
      let visualIndices ← store visualIndices v j
      keepIndices newSectionCount turns (i + 1) (j + 1) (visualIndices, logicalIndices)
    else keepIndices newSectionCount turns (i + 1) j (visualIndices, logicalIndices)

def resizeMapping (oldCount newSectionCount : ℕ) (d : QHeaderView) :
    Except QHeaderViewFault (List ℕ × List ℕ) :=
  if d.logicalIndices.isEmpty then .ok (d.visualIndices, d.logicalIndices)
  else if oldCount ≤ newSectionCount then
    fillIndices (newSectionCount - oldCount) oldCount
      (resize d.visualIndices newSectionCount, resize d.logicalIndices newSectionCount)
  else do
    let (visualIndices, logicalIndices) ← keepIndices newSectionCount oldCount 0 0
      (d.visualIndices, d.logicalIndices)
    pure (resize visualIndices newSectionCount, resize logicalIndices newSectionCount)

/-- `initializeSections(int, int)`. -/
def initializeSectionRange (start stop : ℕ) (d : QHeaderView) :
    Except QHeaderViewFault QHeaderView := do
  let oldCount := d.sectionCount
  let newSectionCount := stop + 1
  let d ← d.dropSections newSectionCount
  let (visualIndices, logicalIndices) ← d.resizeMapping oldCount newSectionCount
  let d := { d with visualIndices := visualIndices, logicalIndices := logicalIndices }
  pure (if oldCount < newSectionCount then
    d.createSectionItems start stop d.defaultSectionSize d.globalResizeMode else d)

/-- `initializeSections()`, with the number of sections of the model. -/
def initializeSections (newCount : ℕ) (d : QHeaderView) : Except QHeaderViewFault QHeaderView :=
  if newCount = 0 then .ok d.clear
  else if newCount ≠ d.sectionCount then do
    let oldCount := d.sectionCount
    let d ← d.initializeSectionRange (min oldCount (newCount - 1)) (newCount - 1)
    if newCount < oldCount then d.updateHiddenSections newCount oldCount else pure d
  else .ok d

/-! ### The loops -/

/-- The indexes that stay are moved to the front, each to the place that the other list has for
it. -/
theorem keepIndices_ends {n : ℕ} {kept gap rest v : List ℕ} (hnodup : (kept ++ rest).Nodup)
    (hlt : ∀ k ∈ rest, k < v.length) (hv : ∀ m k : ℕ, kept[m]? = some k → v[k]? = some m) :
  ∃ v' more, keepIndices n rest.length (kept.length + gap.length) kept.length
      (v, kept ++ (gap ++ rest)) = .ok (v', kept ++ rest.filter (· < n) ++ more)
    ∧ v'.length = v.length
    ∧ (kept ++ rest.filter (· < n) ++ more).length = (kept ++ (gap ++ rest)).length
    ∧ ∀ m k : ℕ, (kept ++ rest.filter (· < n))[m]? = some k → v'[k]? = some m
  := by
  induction rest generalizing kept gap v with
  | nil =>
    use v, gap
    rw [List.filter_nil, List.append_nil, List.append_nil]
    exact ⟨rfl, rfl, rfl, hv⟩
  | cons k rest ih =>
    have hfetch : (kept ++ (gap ++ k :: rest))[kept.length + gap.length]? = some k := by
      rw [List.getElem?_append_right (by omega), Nat.add_sub_cancel_left,
        List.getElem?_append_right (le_refl _), Nat.sub_self]
      rfl
    rw [List.length_cons, keepIndices, fetch_eq hfetch, ok_bind]
    have hk := hlt k List.mem_cons_self
    split
    next hstays =>
      have hplace : kept.length < (kept ++ (gap ++ k :: rest)).length := by
        simp only [List.length_append, List.length_cons]
        omega
      have hset : (kept ++ (gap ++ k :: rest)).set kept.length k
          = kept ++ [k] ++ ((gap ++ [k]).tail ++ rest) := by
        rw [List.set_append_right _ _ (le_refl _), Nat.sub_self, List.append_assoc]
        cases gap with
        | nil => rfl
        | cons g gap => simp
      rw [store_eq hplace, ok_bind, store_eq hk, ok_bind, hset]
      have hlast : ∀ m i : ℕ, (kept ++ [k])[m]? = some i → (v.set k kept.length)[i]? = some m := by
        intro m i hi
        rw [List.getElem?_append] at hi
        split at hi
        next hm =>
          have hne : k ≠ i := by
            rintro rfl
            have hkept := List.mem_of_getElem? hi
            exact (List.nodup_append.mp hnodup).2.2 k hkept k List.mem_cons_self rfl
          rw [List.getElem?_set_ne hne]
          exact hv m i hi
        next hm =>
          have hzero := (List.getElem?_eq_some_iff.mp hi).1
          rw [List.length_singleton, Nat.lt_one_iff] at hzero
          rw [hzero] at hi
          rw [← Option.some.inj hi, List.getElem?_set_self hk]
          congr 1
          omega
      obtain ⟨v', more, hrun, hlength, hall, hinverse⟩ :=
        @ih (kept ++ [k]) (gap ++ [k]).tail (v.set k kept.length) (by rwa [List.append_assoc])
          (fun i hi => by rw [List.length_set]; exact hlt i (List.mem_cons_of_mem k hi)) hlast
      have hgap : (gap ++ [k]).tail.length = gap.length := by simp
      have hkept : (kept ++ [k]).length = kept.length + 1 := List.length_append
      have hfilter : kept ++ [k] ++ rest.filter (· < n) = kept ++ (k :: rest).filter (· < n) := by
        rw [List.filter_cons, if_pos (decide_eq_true hstays), List.append_assoc]
        rfl
      rw [hkept, hgap, hfilter, Nat.add_right_comm] at hrun
      rw [hfilter] at hall hinverse
      rw [List.length_set] at hlength
      refine ⟨v', more, hrun, hlength, ?_, hinverse⟩
      rw [hall, ← hset, List.length_set]
    next hgoes =>
      obtain ⟨v', more, hrun, hlength, hall, hinverse⟩ :=
        @ih kept (gap ++ [k]) v (hnodup.sublist (by simp))
          (fun i hi => hlt i (List.mem_cons_of_mem k hi)) hv
      have hfilter : (k :: rest).filter (· < n) = rest.filter (· < n) :=
        List.filter_cons_of_neg (by simpa using hgoes)
      rw [hfilter, show gap ++ k :: rest = gap ++ [k] ++ rest by simp]
      rw [List.length_append, List.length_singleton, ← Nat.add_assoc] at hrun
      exact ⟨v', more, hrun, hlength, hall, hinverse⟩

theorem fillIndices_eq {v l : List ℕ} (turns : ℕ) {i : ℕ} {a b : List ℕ} (hv : v.length = i)
    (hl : l.length = i) (ha : a.length = turns) (hb : b.length = turns) :
  fillIndices turns i (v ++ a, l ++ b) = .ok (v ++ List.range' i turns, l ++ List.range' i turns)
  := by
  induction turns generalizing i v l a b with
  | zero =>
    rw [List.length_eq_zero_iff.mp ha, List.length_eq_zero_iff.mp hb]
    rfl
  | succ turns ih =>
    cases a with
    | nil => cases ha
    | cons x a =>
      cases b with
      | nil => cases hb
      | cons y b =>
        have hset : ∀ (m : List ℕ) (z : ℕ) (rest : List ℕ), m.length = i →
            (m ++ z :: rest).set i i = m ++ [i] ++ rest := by
          intro m z rest hm
          rw [← hm, List.set_append_right _ _ (le_refl _), Nat.sub_self, List.append_assoc]
          rfl
        have hplace : ∀ (m : List ℕ) (z : ℕ) (rest : List ℕ), m.length = i →
            i < (m ++ z :: rest).length := by
          intro m z rest hm
          rw [List.length_append, List.length_cons]
          omega
        rw [fillIndices, store_eq (hplace l y b hl), ok_bind, store_eq (hplace v x a hv),
          ok_bind, hset l y b hl, hset v x a hv]
        rw [ih (by rw [List.length_append, hv]; rfl) (by rw [List.length_append, hl]; rfl)
          (Nat.succ.inj ha) (Nat.succ.inj hb), List.range'_succ]
        simp only [List.append_assoc, List.singleton_append]

/-! ### The hash -/

theorem lookup_removeSizes (keys : List ℕ) (sizes : SectionSizes) (k : ℕ) :
  (removeSizes sizes keys).lookup k = if k ∈ keys then none else sizes.lookup k
  := by
  induction keys generalizing sizes with
  | nil => rfl
  | cons key keys ih =>
    rw [removeSizes, List.foldl_cons]
    change (removeSizes (sizes.erase key) keys).lookup k = _
    rw [ih]
    rcases eq_or_ne k key with rfl | hne
    · rw [if_pos List.mem_cons_self, AList.lookup_erase, ite_self]
    · simp only [List.mem_cons, hne, false_or, AList.lookup_erase_ne hne]

/-- The hash without the sections that go. -/
def trimmed (n : ℕ) (sizes : SectionSizes) : SectionSizes :=
  removeSizes sizes (sizes.keys.filter (n ≤ ·))

theorem lookup_trimmed (n : ℕ) (sizes : SectionSizes) (k : ℕ) :
  (trimmed n sizes).lookup k = if k < n then sizes.lookup k else none
  := by
  rw [trimmed, lookup_removeSizes]
  rcases Nat.lt_or_ge k n with hk | hk
  · rw [if_pos hk, if_neg]
    intro hmem
    have hle := of_decide_eq_true (List.mem_filter.mp hmem).2
    omega
  · rw [if_neg (Nat.not_lt.mpr hk)]
    split
    next => rfl
    next hnot =>
      rw [AList.lookup_eq_none]
      intro hmem
      exact hnot (List.mem_filter.mpr ⟨hmem, decide_eq_true hk⟩)

/-- The sizes of the sections that stay are kept. -/
theorem lookup_trimHidden (oldCount n : ℕ) (d : QHeaderView) :
  ∃ sizes, d.trimHidden oldCount n = { d with hiddenSectionSize := sizes }
    ∧ ∀ k < n, sizes.lookup k = d.hiddenSectionSize.lookup k
  := by
  rw [trimHidden]
  split
  next => exact ⟨_, rfl, fun k _ => rfl⟩
  next =>
    split
    next =>
      refine ⟨_, rfl, fun k hk => ?_⟩
      rw [lookup_removeSizes, if_neg]
      intro hmem
      have hrange := List.mem_range'_1.mp hmem
      omega
    next =>
      refine ⟨trimmed n d.hiddenSectionSize, rfl, fun k hk => ?_⟩
      rw [lookup_trimmed, if_pos hk]

section reset

variable {d : QHeaderView} {n : ℕ}

/-! ### Fewer sections -/

theorem WellFormed.tagged_lt (h : d.WellFormed) {x : ℕ × SectionItem} (hx : x ∈ d.tagged) :
  x.1 < d.sectionCount
  := by
  obtain ⟨i, hi⟩ := List.mem_iff_getElem?.mp hx
  rw [← h.length_logicals]
  exact h.inverse.lt (List.getElem?_zip_eq_some.mp hi).1

theorem filter_range_lt {m : ℕ} (h : n ≤ m) :
  (List.range m).filter (· < n) = List.range n
  := by
  obtain ⟨k, rfl⟩ := Nat.exists_eq_add_of_le h
  rw [List.range_add, List.filter_append, List.filter_eq_self.mpr, List.filter_eq_nil_iff.mpr,
    List.append_nil]
  · intro i hi
    obtain ⟨j, -, rfl⟩ := List.mem_map.mp hi
    simp
  · intro i hi
    exact decide_eq_true (List.mem_range.mp hi)

theorem WellFormed.length_filter (h : d.WellFormed) (hn : n ≤ d.sectionCount) :
  (d.logicals.filter (· < n)).length = n
  := by
  have hperm := (h.inverse.perm.filter (· < n)).length_eq
  rw [h.length_logicals, filter_range_lt hn, List.length_range] at hperm
  exact hperm

/-- The lists of indexes of a smaller header. -/
theorem resizeMapping_ends (h : d.WellFormed) (hn : n < d.sectionCount) {d' : QHeaderView}
    (hvisual : d'.visualIndices = d.visualIndices)
    (hlogical : d'.logicalIndices = d.logicalIndices) :
  ∃ v l, d'.resizeMapping d.sectionCount n = .ok (v, l)
    ∧ (v = [] ∧ l = [] ∨ Inverse l v ∧ l.length = n)
    ∧ (if l.isEmpty then List.range n else l) = d.logicals.filter (· < n)
  := by
  have hlength := h.length_filter (Nat.le_of_lt hn)
  rw [resizeMapping, hvisual, hlogical]
  rcases h.mapping with ⟨hv, hl⟩ | ⟨hinverse, hcount⟩
  · rw [hv, hl]
    refine ⟨[], [], rfl, .inl ⟨rfl, rfl⟩, ?_⟩
    rw [logicals, hl]
    exact (filter_range_lt (Nat.le_of_lt hn)).symm
  · have hlogicals : d.logicals = d.logicalIndices := isEmpty_eq_of_length hcount
    rw [hlogicals] at hlength ⊢
    have hnonempty : ¬ d.logicalIndices.isEmpty = true := by
      rw [List.isEmpty_iff_length_eq_zero]
      omega
    obtain ⟨v, more, hrun, hv, hall, hplaces⟩ :=
      @keepIndices_ends n [] [] d.logicalIndices d.visualIndices hinverse.nodup (by
        intro k hk
        obtain ⟨i, hi⟩ := List.mem_iff_getElem?.mp hk
        rw [hinverse.length_eq]
        exact hinverse.lt hi) (by
        rintro m k ⟨⟩)
    rw [List.length_nil, List.nil_append, List.nil_append, List.nil_append] at hrun
    rw [List.nil_append] at hplaces hall
    have hlists : resize (d.logicalIndices.filter (· < n) ++ more) n
        = d.logicalIndices.filter (· < n) := by
      rw [resize, List.take_left' hlength,
        Nat.sub_eq_zero_of_le (by rw [List.length_append]; omega)]
      exact List.append_nil _
    refine ⟨resize v n, d.logicalIndices.filter (· < n), ?_, .inr ⟨⟨?_, ?_⟩, hlength⟩, ?_⟩
    · rw [if_neg hnonempty, if_neg (by omega), ← hcount, hrun, ok_bind]
      exact congrArg (fun l => Except.ok (resize v n, l)) hlists
    · rw [hlength, resize, List.length_append, List.length_take, List.length_replicate]
      omega
    · intro i k hk
      have hlt := of_decide_eq_true (List.mem_filter.mp (List.mem_of_getElem? hk)).2
      have hat := hplaces i k hk
      have hin := (List.getElem?_eq_some_iff.mp hat).1
      rw [resize, List.getElem?_append_left (by rw [List.length_take]; omega),
        List.getElem?_take_of_lt hlt, hat]
    · exact isEmpty_eq_of_length hlength

/-- The first sections in visual order stay, whatever their logical indexes are. -/
theorem initializeSectionRange_fewer (h : d.WellFormed) (hn : n < d.sectionCount) {stop : ℕ}
    (hstop : stop + 1 = n) (start : ℕ) :
  ∃ v l sizes, d.initializeSectionRange start stop = .ok { d with
      hiddenSectionSize := sizes, visualIndices := v, logicalIndices := l,
      sectionItems := d.sectionItems.take n }
    ∧ (v = [] ∧ l = [] ∨ Inverse l v ∧ l.length = n)
    ∧ (if l.isEmpty then List.range n else l) = d.logicals.filter (· < n)
    ∧ ∀ k < n, sizes.lookup k = d.hiddenSectionSize.lookup k
  := by
  have hcount : n < d.sectionItems.length := hn
  obtain ⟨sizes, htrim, hsizes⟩ := lookup_trimHidden d.sectionCount n
    { d with sectionItems := d.sectionItems.take n }
  obtain ⟨v, l, hmapping, hinverse, hfilter⟩ := @resizeMapping_ends d n h hn
    { d with hiddenSectionSize := sizes, sectionItems := d.sectionItems.take n } rfl rfl
  refine ⟨v, l, sizes, ?_, hinverse, hfilter, hsizes⟩
  have hdrop : d.dropSections n = .ok
      { d with hiddenSectionSize := sizes, sectionItems := d.sectionItems.take n } := by
    rw [dropSections, if_pos hn, removeSectionsFromSectionItems, sectionCount,
      if_neg (by omega), Nat.sub_add_cancel (by omega), List.drop_length, List.append_nil, ok_bind]
    exact congrArg Except.ok htrim
  rw [initializeSectionRange]
  dsimp only
  rw [hstop, hdrop, ok_bind, hmapping, ok_bind]
  dsimp only
  rw [if_neg (by omega)]
  rfl

/-- The sections that stay, where the first ones are theirs. -/
theorem zip_filter (h : d.WellFormed)
    (hsame : (d.tagged.filter (·.1 < n)).map Prod.snd = d.sectionItems.take n) :
  (d.logicals.filter (· < n)).zip (d.sectionItems.take n) = d.tagged.filter (·.1 < n)
  := by
  have hfst : d.tagged.map Prod.fst = d.logicals :=
    List.map_fst_zip (Nat.le_of_eq h.length_logicals)
  have hlogicals : d.logicals.filter (· < n) = (d.tagged.filter (·.1 < n)).map Prod.fst := by
    rw [← hfst, List.filter_map]
    rfl
  rw [← hsame, hlogicals, List.zip_map']
  exact List.map_id _

/-- The stores of a smaller header agree, where the first sections are those that stay. -/
theorem WellFormed.fewer (h : d.WellFormed)
    (hsame : (d.tagged.filter (·.1 < n)).map Prod.snd = d.sectionItems.take n)
    (hn : n ≤ d.sectionCount) {v l : List ℕ} {sizes : SectionSizes}
    (hmapping : v = [] ∧ l = [] ∨ Inverse l v ∧ l.length = n)
    (hfilter : (if l.isEmpty then List.range n else l) = d.logicals.filter (· < n))
    (hsizes : ∀ k, sizes.lookup k = if k < n then d.hiddenSectionSize.lookup k else none)
    {d' : QHeaderView} (hd' : d' = { d with
      hiddenSectionSize := sizes, visualIndices := v, logicalIndices := l,
      sectionItems := d.sectionItems.take n }) :
  d'.WellFormed ∧ d'.sectionCount = n ∧ d'.tagged = d.tagged.filter (·.1 < n)
  := by
  have hcount : d'.sectionCount = n := by
    rw [hd']
    exact List.length_take_of_le hn
  have htagged : d'.tagged = d.tagged.filter (·.1 < n) := by
    rw [← zip_filter h hsame, ← hfilter, tagged, logicals, hcount, hd']
  have hsizes' : d'.hiddenSectionSize = sizes := by rw [hd']
  refine ⟨⟨?_, ?_, ?_⟩, hcount, htagged⟩
  · rw [hcount, hd']
    exact hmapping
  · rw [htagged, hsizes']
    intro x hx
    obtain ⟨hmem, hlt⟩ := List.mem_filter.mp hx
    rw [hsizes, if_pos (of_decide_eq_true hlt)]
    exact h.flags x hmem
  · intro k hk
    rw [hsizes', hsizes] at hk
    rw [hcount]
    split at hk
    next hlt => exact hlt
    next => cases hk

/-- `updateHiddenSections`, from the number of sections on, leaves the sizes of hidden sections. -/
theorem updateHiddenSections_all (h : d.WellFormed) {sizes : SectionSizes}
    (hsizes : ∀ k < d.sectionCount, sizes.lookup k = d.hiddenSectionSize.lookup k)
    (hle : d.sectionCount ≤ n) :
  ∃ sizes', updateHiddenSections d.sectionCount n { d with hiddenSectionSize := sizes }
      = .ok { d with hiddenSectionSize := sizes' }
    ∧ ∀ k, sizes'.lookup k = d.hiddenSectionSize.lookup k
  := by
  obtain ⟨sizes', hrun, hsizes'⟩ := keepHidden_ends (d := { d with hiddenSectionSize := sizes })
    (fun l hl => h.isSectionHidden_sizes hl (hsizes l hl)) 0 d.sectionCount
    (Nat.le_of_eq (Nat.zero_add _)) (Nat.le_refl 0) ∅
  refine ⟨sizes', ?_, fun k => ?_⟩
  · have hturns : sectionCount { d with hiddenSectionSize := sizes } - (n + 1) = 0 :=
      Nat.sub_eq_zero_of_le (Nat.le_succ_of_le hle)
    rw [updateHiddenSections]
    dsimp only
    rw [hrun, ok_bind]
    dsimp only
    rw [hturns, keepHidden, ok_bind]
    rfl
  · rw [hsizes', AList.lookup_empty, Option.or_none, Nat.add_zero]
    split
    next hlt => exact hsizes k (by omega)
    next hout =>
      have hnone := mt (h.keys k) (by omega)
      rw [Bool.not_eq_true, Option.isSome_eq_false_iff, Option.isNone_iff_eq_none] at hnone
      exact hnone.symm

/-! ### More sections -/

theorem createSectionItems_append (d : QHeaderView) {count stop : ℕ}
    (hstop : stop + 1 = d.sectionCount + count) (size : ℤ) (mode : ResizeMode) :
  createSectionItems d.sectionCount stop size mode d = { d with
    sectionItems := d.sectionItems
      ++ List.replicate count ⟨BitVec.ofInt 20 size, false, mode⟩ }
  := by
  have hnew : stop + 1 - d.sectionItems.length = count := by
    change stop + 1 - d.sectionCount = count
    omega
  rw [createSectionItems, hnew]
  congr 1
  apply List.ext_getElem
  · simp
  · intro i hi hi'
    rw [List.length_append, List.length_replicate] at hi'
    rw [List.getElem_mapIdx]
    rcases Nat.lt_or_ge i d.sectionItems.length with hold | hold
    · rw [List.getElem_append_left hold, List.getElem_append_left hold]
      exact if_neg (fun h => Nat.not_lt.mpr h.1 hold)
    · rw [List.getElem_append_right hold, List.getElem_append_right hold, List.getElem_replicate,
        List.getElem_replicate, if_pos]
      use hold
      change i < d.sectionCount + count at hi'
      omega

theorem inverse_append {l v : List ℕ} (h : Inverse l v) (count : ℕ) :
  Inverse (l ++ List.range' l.length count) (v ++ List.range' l.length count)
  := by
  constructor
  · rw [List.length_append, List.length_append, h.length_eq]
  · intro i k hk
    rcases Nat.lt_or_ge i l.length with hi | hi
    · rw [List.getElem?_append_left hi] at hk
      have hat := h.at_eq i k hk
      rwa [List.getElem?_append_left (List.getElem?_eq_some_iff.mp hat).1]
    · rw [List.getElem?_append_right hi] at hk
      have hnew := (List.getElem?_eq_some_iff.mp hk).1
      rw [List.length_range'] at hnew
      rw [List.getElem?_range' hnew, Option.some.injEq] at hk
      have hsame : k = i := by omega
      rw [hsame, List.getElem?_append_right (by rw [h.length_eq]; exact hi), h.length_eq,
        List.getElem?_range' hnew]
      congr 1
      omega

/-- New sections come last. -/
theorem initializeSectionRange_more (h : d.WellFormed) {count stop : ℕ} (hcount : 0 < count)
    (hstop : stop + 1 = d.sectionCount + count) :
  ∃ v l, d.initializeSectionRange d.sectionCount stop = .ok { d with
      visualIndices := v, logicalIndices := l,
      sectionItems := d.sectionItems
        ++ List.replicate count ⟨BitVec.ofInt 20 d.defaultSectionSize, false, d.globalResizeMode⟩ }
    ∧ (v = [] ∧ l = [] ∨ Inverse l v ∧ l.length = d.sectionCount + count)
    ∧ (if l.isEmpty then List.range (d.sectionCount + count) else l)
      = d.logicals ++ List.range' d.sectionCount count
  := by
  have hmapping : ∃ v l, d.resizeMapping d.sectionCount (stop + 1) = .ok (v, l)
      ∧ (v = [] ∧ l = [] ∨ Inverse l v ∧ l.length = d.sectionCount + count)
      ∧ (if l.isEmpty then List.range (d.sectionCount + count) else l)
        = d.logicals ++ List.range' d.sectionCount count := by
    rw [resizeMapping]
    have hrange : List.range (d.sectionCount + count)
        = List.range d.sectionCount ++ List.range' d.sectionCount count := by
      rw [List.range_add, List.range'_eq_map_range]
    by_cases hempty : d.logicalIndices.isEmpty = true
    · have hlogical := List.isEmpty_iff.mp hempty
      have hvisual : d.visualIndices = [] := by
        rcases h.mapping with hnone | ⟨hinverse, -⟩
        · exact hnone.1
        · rw [← List.length_eq_zero_iff, hinverse.length_eq, hlogical]
          rfl
      rw [if_pos hempty, hvisual, hlogical]
      refine ⟨[], [], rfl, .inl ⟨rfl, rfl⟩, ?_⟩
      rw [logicals, hlogical]
      exact hrange
    · obtain ⟨hinverse, hlength⟩ := h.mapping.resolve_left (by
        rintro ⟨-, hlogical⟩
        exact hempty (List.isEmpty_iff.mpr hlogical))
      have hresize : ∀ m : List ℕ, m.length = d.sectionCount →
          resize m (stop + 1) = m ++ List.replicate count 0 := by
        intro m hm
        rw [resize, List.take_of_length_le (by omega), hstop, hm, Nat.add_sub_cancel_left]
      have hvisuals := hinverse.length_eq.trans hlength
      have hnew := inverse_append hinverse count
      rw [hlength] at hnew
      have hall : (d.logicalIndices ++ List.range' d.sectionCount count).length
          = d.sectionCount + count := by
        rw [List.length_append, hlength, List.length_range']
      rw [if_neg hempty, if_pos (by omega), hresize _ hvisuals, hresize _ hlength, hstop,
        Nat.add_sub_cancel_left, fillIndices_eq count hvisuals hlength List.length_replicate
          List.length_replicate]
      refine ⟨_, _, rfl, .inr ⟨hnew, hall⟩, ?_⟩
      rw [isEmpty_eq_of_length hall, logicals, isEmpty_eq_of_length hlength]
  obtain ⟨v, l, hresize, hinverse, hlogicals⟩ := hmapping
  refine ⟨v, l, ?_, hinverse, hlogicals⟩
  have hdrop : d.dropSections (stop + 1) = .ok d := if_neg (by omega)
  rw [initializeSectionRange]
  dsimp only
  rw [hdrop, ok_bind, hresize, ok_bind]
  dsimp only
  rw [if_pos (by omega)]
  exact congrArg Except.ok (createSectionItems_append
    { d with visualIndices := v, logicalIndices := l } hstop _ _)

/-- The stores of a header with new sections agree, and the others are in front of these. -/
theorem WellFormed.more (h : d.WellFormed) {count : ℕ} {v l : List ℕ} (new : SectionItem)
    (hnew : new.isHidden = false)
    (hmapping : v = [] ∧ l = [] ∨ Inverse l v ∧ l.length = d.sectionCount + count)
    (hlogicals : (if l.isEmpty then List.range (d.sectionCount + count) else l)
      = d.logicals ++ List.range' d.sectionCount count)
    {d' : QHeaderView} (hd' : d' = { d with
      visualIndices := v, logicalIndices := l,
      sectionItems := d.sectionItems ++ List.replicate count new }) :
  d'.WellFormed ∧ d'.sectionCount = d.sectionCount + count
    ∧ d'.tagged.filter (·.1 < d.sectionCount) = d.tagged
  := by
  have hcount : d'.sectionCount = d.sectionCount + count := by
    rw [hd']
    change (d.sectionItems ++ List.replicate count new).length = d.sectionItems.length + count
    rw [List.length_append, List.length_replicate]
  have htagged : d'.tagged = d.tagged
      ++ (List.range' d.sectionCount count).map fun i => (i, new) := by
    rw [tagged, logicals, hcount, hd']
    dsimp only
    rw [hlogicals, List.zip_append h.length_logicals, zip_range'_replicate]
    rfl
  have hsame : d'.hiddenSectionSize = d.hiddenSectionSize := by rw [hd']
  refine ⟨⟨?_, ?_, ?_⟩, hcount, ?_⟩
  · rw [hcount, hd']
    exact hmapping
  · rw [htagged, hsame]
    intro x hx
    rcases List.mem_append.mp hx with hold | hlast
    · exact h.flags x hold
    · obtain ⟨i, hi, rfl⟩ := List.mem_map.mp hlast
      have hnone := mt (h.keys i) (by have := List.mem_range'_1.mp hi; omega)
      rw [Bool.not_eq_true] at hnone
      rw [hnone, hnew]
  · intro k hk
    rw [hsame] at hk
    have hlt := h.keys k hk
    omega
  · rw [htagged, List.filter_append, List.filter_eq_self.mpr, List.filter_eq_nil_iff.mpr,
      List.append_nil]
    · intro x hx
      obtain ⟨i, hi, rfl⟩ := List.mem_map.mp hx
      have hrange := List.mem_range'_1.mp hi
      simp only [decide_eq_true_eq]
      omega
    · intro x hx
      exact decide_eq_true (h.tagged_lt hx)

end reset

/-! ### The header after the reset -/

/-- The header has as many sections as the model, with lists of indexes that are inverse to each
other.  The sections that there were before, and still are, have their size, mode and flag, in the
same order.  The hash has the sizes of those of them that are hidden, and no others. -/
def Survives (d : QHeaderView) (newCount : ℕ) : Prop :=
  ∃ d', d.initializeSections newCount = .ok d'
    ∧ d'.sectionCount = newCount
    ∧ Inverse d'.logicals d'.visuals ∧ d'.logicals.length = newCount
    ∧ d'.tagged.filter (·.1 < d.sectionCount) = d.tagged.filter (·.1 < newCount)
    ∧ (∀ l : ℕ, l ∈ d'.hiddenSectionSize ↔ ∃ item, (l, item) ∈ d'.tagged ∧ item.isHidden = true)
    ∧ ∀ l : ℕ, d'.hiddenSectionSize.lookup l
      = if l < newCount then d.hiddenSectionSize.lookup l else none

variable {d : QHeaderView} {n : ℕ}

theorem WellFormed.filter_tagged (h : d.WellFormed) (hn : d.sectionCount ≤ n) :
  d.tagged.filter (·.1 < n) = d.tagged
  := by
  rw [List.filter_eq_self]
  intro x hx
  exact decide_eq_true (Nat.lt_of_lt_of_le (h.tagged_lt hx) hn)

theorem WellFormed.lookup_of_le (h : d.WellFormed) (hn : d.sectionCount ≤ n) (l : ℕ) :
  d.hiddenSectionSize.lookup l = if l < n then d.hiddenSectionSize.lookup l else none
  := by
  split
  next => rfl
  next hl =>
    have hnone := mt (h.keys l) (by omega)
    rwa [Bool.not_eq_true, Option.isSome_eq_false_iff, Option.isNone_iff_eq_none] at hnone

/-- A header that does not become smaller survives. -/
theorem survives_more (h : d.WellFormed) (hn : 0 < n) (hle : d.sectionCount ≤ n) :
  d.Survives n
  := by
  rcases Nat.eq_or_lt_of_le hle with rfl | hlt
  · refine ⟨d, ?_, rfl, h.inverse, h.length_logicals, rfl, fun l => h.mem_hiddenSectionSize,
      h.lookup_of_le hle⟩
    rw [initializeSections, if_neg (by omega), if_neg (not_not_intro rfl)]
  · obtain ⟨count, hcount⟩ := Nat.exists_eq_add_of_lt hlt
    obtain ⟨v, l, hrun, hmapping, hlogicals⟩ :=
      initializeSectionRange_more h (Nat.succ_pos count)
        (by omega : n - 1 + 1 = d.sectionCount + (count + 1))
    obtain ⟨h', hsections, htagged⟩ :=
      h.more ⟨BitVec.ofInt 20 d.defaultSectionSize, false, d.globalResizeMode⟩ rfl hmapping
        hlogicals rfl
    have hall : d.sectionCount + (count + 1) = n := by omega
    refine ⟨_, ?_, hsections.trans hall, h'.inverse,
      (h'.length_logicals.trans hsections).trans hall, ?_, fun l => h'.mem_hiddenSectionSize,
      h.lookup_of_le hle⟩
    · rw [initializeSections, if_neg (by omega), if_pos (by omega)]
      dsimp only
      rw [Nat.min_eq_left (by omega), hrun, ok_bind, if_neg (by omega)]
      rfl
    · rw [htagged, h.filter_tagged hle]

theorem keepHidden_items {changeCount turns i : ℕ} {d' : QHeaderView} {sizes sizes' : SectionSizes}
    (h : keepHidden changeCount turns i (d, sizes) = .ok (d', sizes')) :
  d'.sectionItems = d.sectionItems
  := by
  induction turns generalizing d i sizes with
  | zero =>
    cases h
    rfl
  | succ turns ih =>
    rw [keepHidden] at h
    cases hhidden : d.isSectionHidden i with
    | error fault =>
      rw [hhidden] at h
      cases h
    | ok hidden =>
      rw [hhidden, ok_bind] at h
      cases hidden with
      | true =>
        rw [if_pos rfl] at h
        exact (ih h).trans rfl
      | false => exact ih h

theorem updateHiddenSections_items {first last : ℕ} {d' : QHeaderView}
    (h : d.updateHiddenSections first last = .ok d') :
  d'.sectionItems = d.sectionItems
  := by
  rw [updateHiddenSections] at h
  dsimp only at h
  cases hfirst : keepHidden 0 first 0 (d, ∅) with
  | error fault =>
    rw [hfirst] at h
    cases h
  | ok result =>
    obtain ⟨d₁, sizes₁⟩ := result
    rw [hfirst, ok_bind] at h
    dsimp only at h
    cases hlast : keepHidden (last + 1 - first) (d₁.sectionCount - (last + 1)) (last + 1)
        (d₁, sizes₁) with
    | error fault =>
      rw [hlast] at h
      cases h
    | ok result =>
      obtain ⟨d₂, sizes₂⟩ := result
      rw [hlast, ok_bind] at h
      cases h
      exact (keepHidden_items hlast).trans (keepHidden_items hfirst)

/-- A header that becomes smaller survives where the first sections in visual order are those that
stay, but for their logical indexes. -/
theorem survives_fewer (h : d.WellFormed) (hn : 0 < n) (hlt : n < d.sectionCount) :
  d.Survives n ↔ (d.tagged.filter (·.1 < n)).map Prod.snd = d.sectionItems.take n
  := by
  obtain ⟨v, l, sizes, hrange, hmapping, hfilter, hsizes⟩ :=
    initializeSectionRange_fewer h hlt (Nat.sub_add_cancel hn) (n - 1)
  have hrun : d.initializeSections n = updateHiddenSections n d.sectionCount { d with
      hiddenSectionSize := sizes, visualIndices := v, logicalIndices := l,
      sectionItems := d.sectionItems.take n } := by
    rw [initializeSections, if_neg (by omega), if_pos (by omega)]
    dsimp only
    rw [Nat.min_eq_right (by omega), hrange, ok_bind, if_pos hlt]
  constructor
  · rintro ⟨d', hd', hcount, hinverse, hlength, htagged, -, -⟩
    have hitems := updateHiddenSections_items (hrun.symm.trans hd')
    change d'.sectionItems = d.sectionItems.take n at hitems
    have hall : d'.tagged.filter (·.1 < d.sectionCount) = d'.tagged := by
      rw [List.filter_eq_self]
      intro x hx
      obtain ⟨i, hi⟩ := List.mem_iff_getElem?.mp hx
      have hx_lt := hinverse.lt (List.getElem?_zip_eq_some.mp hi).1
      exact decide_eq_true (by omega)
    rw [← htagged, hall, ← hitems, tagged]
    apply List.map_snd_zip
    rw [hlength]
    exact Nat.le_of_eq hcount
  · intro hsame
    have hle := Nat.le_of_lt hlt
    obtain ⟨hsmall, hcount, -⟩ :=
      h.fewer hsame hle hmapping hfilter (lookup_trimmed n d.hiddenSectionSize) rfl
    have hstay : ∀ k < n, sizes.lookup k = (trimmed n d.hiddenSectionSize).lookup k := by
      intro k hk
      rw [hsizes k hk, lookup_trimmed, if_pos hk]
    obtain ⟨sizes', hupdate, hsizes'⟩ := updateHiddenSections_all hsmall
      (fun k hk => hstay k (Nat.lt_of_lt_of_eq hk hcount)) (Nat.le_trans (Nat.le_of_eq hcount) hle)
    rw [hcount] at hupdate
    have hlookup : ∀ k, sizes'.lookup k = if k < n then d.hiddenSectionSize.lookup k else none :=
      fun k => (hsizes' k).trans (lookup_trimmed n d.hiddenSectionSize k)
    obtain ⟨h', hsections, htagged⟩ := h.fewer hsame hle hmapping hfilter hlookup rfl
    refine ⟨_, hrun.trans hupdate, hsections, h'.inverse, h'.length_logicals.trans hsections, ?_,
      fun l => h'.mem_hiddenSectionSize, hlookup⟩
    rw [htagged, List.filter_filter]
    apply List.filter_congr
    intro x hx
    rw [decide_eq_true (h.tagged_lt hx), Bool.true_and]

section flexible

variable (items : List (BitVec 20 × ResizeMode)) (sortIndicatorSection defaultSectionSize : ℤ)
  (globalResizeMode : ResizeMode) (minimumSectionSize maximumSectionSize : ℤ) (noClear : Bool)

/-- In every state that a header is in after any actions. -/
theorem survives_iff {actions : List Action}
    (hrun : (flexible items sortIndicatorSection defaultSectionSize globalResizeMode
      minimumSectionSize maximumSectionSize noClear).run actions = .ok d)
    (hn : 0 < n) :
  d.Survives n ↔ (d.tagged.filter (·.1 < n)).map Prod.snd = d.sectionItems.take n
  := by
  obtain ⟨d', hrun', h, -⟩ := run_ends (flexible_wellFormed items sortIndicatorSection
    defaultSectionSize globalResizeMode minimumSectionSize maximumSectionSize noClear) actions
  rw [hrun, Except.ok.injEq] at hrun'
  rw [← hrun'] at h
  rcases Nat.lt_or_ge n d.sectionCount with hlt | hge
  · exact survives_fewer h hn hlt
  · apply iff_of_true (survives_more h hn hge)
    rw [h.filter_tagged hge, List.take_of_length_le hge]
    exact List.map_snd_zip (Nat.le_of_eq h.length_logicals.symm)

end flexible

/-- A header of two sections of 10 and 20 pixels, the first of which has been moved behind the
second. -/
def turned : QHeaderView where
  visualIndices := [1, 0]
  logicalIndices := [1, 0]
  hiddenSectionSize := ∅
  sectionItems := [⟨20, false, .Interactive⟩, ⟨10, false, .Interactive⟩]
  sortIndicatorSection := 0
  defaultSectionSize := 30
  globalResizeMode := .Interactive
  minimumSectionSize := 5
  maximumSectionSize := 100
  noClear := true

theorem run_turned :
  (flexible [(10, .Interactive), (20, .Interactive)] 0 30 .Interactive 5 100 true).run
    [.moveSection 0 1] = .ok turned
  := rfl

/-- It gets a third section. -/
theorem survives_turned :
  turned.Survives 3
  := (survives_iff _ _ _ _ _ _ _ run_turned (by decide)).mpr (by decide)

/-- With one section, the size of the other one stays. -/
theorem not_survives_turned :
  (flexible [(10, .Interactive), (20, .Interactive)] 0 30 .Interactive 5 100 true).run
      [.moveSection 0 1] = .ok turned
    ∧ ¬ turned.Survives 1
  := by
  use run_turned
  rintro ⟨d', hrun, -, -, -, htagged, -⟩
  have hshrunk : turned.initializeSections 1 = .ok { turned with
      visualIndices := [0], logicalIndices := [0],
      sectionItems := [⟨20, false, .Interactive⟩] } := rfl
  rw [hshrunk, Except.ok.injEq] at hrun
  rw [← hrun] at htagged
  revert htagged
  decide

end QHeaderView
