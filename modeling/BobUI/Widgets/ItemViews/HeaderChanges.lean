import BobUI.Widgets.ItemViews.HeaderHiding
import Mathlib.Data.List.TakeDrop

/-!
# Insertion and removal of sections

The insertion and the removal of sections renumber the others in all stores.
-/

namespace QHeaderView

open IndexLists

variable {d : QHeaderView}

/-! ### Insertion -/

theorem insertIndices_eq {first : ℕ} (count : ℕ) {l : List ℕ} (h : first ≤ l.length) :
  insertIndices first count l
    = .ok (l.take first ++ List.range' first count ++ l.drop first)
  := by
  induction count generalizing first l with
  | zero =>
    rw [insertIndices, List.range'_zero, List.append_nil, List.take_append_drop]
  | succ count ih =>
    have hinsert : l.take first ++ first :: l.drop first
        = (l.take first ++ [first]) ++ l.drop first := by
      rw [List.append_assoc, List.singleton_append]
    have hlength : (l.take first ++ [first]).length = first + 1 := by
      rw [List.length_append, List.length_take, Nat.min_eq_left h, List.length_singleton]
    rw [insertIndices, if_neg (Nat.not_lt_of_le h), hinsert, ih]
    · rw [List.take_left' hlength, List.drop_left' hlength, List.range'_succ,
        List.append_assoc (l.take first), List.singleton_append]
    · rw [List.length_append, hlength]
      omega

/-- The sizes of the hidden sections under other indexes. -/
theorem lookup_foldl_insert {g : ℕ → ℕ} (hg : Function.Injective g)
    {entries : List (Sigma fun _ : ℕ => ℤ)} (hnodup : entries.NodupKeys) (sizes : SectionSizes)
    (k : ℕ) :
  (entries.foldl (fun sizes entry => sizes.insert (g entry.1) entry.2) sizes).lookup (g k)
    = (entries.dlookup k).or (sizes.lookup (g k))
  := by
  induction entries generalizing sizes with
  | nil => rfl
  | cons entry entries ih =>
    obtain ⟨i, size⟩ := entry
    rw [List.nodupKeys_cons] at hnodup
    rw [List.foldl_cons, ih hnodup.2]
    by_cases hk : k = i
    · rw [hk, List.dlookup_eq_none.mpr hnodup.1, List.dlookup_cons_eq, AList.lookup_insert]
      rfl
    · rw [List.dlookup_cons_ne _ _ hk, AList.lookup_insert_ne (fun h => hk (hg h))]

theorem lookup_foldl_of_notMem {g : ℕ → ℕ} (entries : List (Sigma fun _ : ℕ => ℤ))
    (sizes : SectionSizes) {k : ℕ} (hk : ∀ i, g i ≠ k) :
  (entries.foldl (fun sizes entry => sizes.insert (g entry.1) entry.2) sizes).lookup k
    = sizes.lookup k
  := by
  induction entries generalizing sizes with
  | nil => rfl
  | cons entry entries ih =>
    rw [List.foldl_cons, ih, AList.lookup_insert_ne (hk entry.1).symm]

theorem shiftIndex_injective (first count : ℕ) :
  Function.Injective (shiftIndex first count)
  := by
  intro i j h
  unfold shiftIndex at h
  split_ifs at h <;> omega

/-- The sizes of the hidden sections after an insertion. -/
theorem WellFormed.lookup_inserted (first count k : ℕ) :
  (d.hiddenSectionSize.entries.foldl
      (fun sizes entry => sizes.insert (shiftIndex first count entry.1) entry.2)
      (∅ : SectionSizes)).lookup k
    = if k < first then d.hiddenSectionSize.lookup k
      else if k < first + count then none
      else d.hiddenSectionSize.lookup (k - count)
  := by
  have hold : ∀ i, shiftIndex first count i = k →
      (d.hiddenSectionSize.entries.foldl
        (fun sizes entry => sizes.insert (shiftIndex first count entry.1) entry.2)
        (∅ : SectionSizes)).lookup k = d.hiddenSectionSize.lookup i := by
    rintro i rfl
    rw [lookup_foldl_insert (shiftIndex_injective first count) d.hiddenSectionSize.nodupKeys,
      AList.lookup_empty, Option.or_none]
    rfl
  split
  next hk => exact hold k (if_neg (by omega))
  next hk =>
    split
    next hnew =>
      rw [lookup_foldl_of_notMem, AList.lookup_empty]
      intro i hi
      unfold shiftIndex at hi
      split at hi
      next => omega
      next => omega
    next hge =>
      apply hold
      rw [shiftIndex, if_pos (by omega)]
      omega

theorem zip_range'_replicate {α : Type} (first count : ℕ) (a : α) :
  (List.range' first count).zip (List.replicate count a)
    = (List.range' first count).map fun i => (i, a)
  := by
  induction count generalizing first with
  | zero => rfl
  | succ count ih =>
    rw [List.range'_succ, List.replicate_succ, List.zip_cons_cons, ih, List.map_cons]

/-- The sections with their logical indexes, where new ones have been inserted. -/
theorem zip_widened {α : Type} {l : List ℕ} {items : List α} (hlength : l.length = items.length)
    (first count : ℕ) (a : α) :
  (widened first count l).zip
      (items.take first ++ (List.replicate count a ++ items.drop first))
    = ((l.zip items).map (Prod.map (raise first count) id)).take first
      ++ (List.range' first count).map (fun i => (i, a))
      ++ ((l.zip items).map (Prod.map (raise first count) id)).drop first
  := by
  rw [widened, List.append_assoc, List.append_assoc, List.zip_append, List.zip_append,
    zip_range'_replicate, ← List.zip_map_left, List.zip_eq_zipWith, List.zip_eq_zipWith,
    List.zip_eq_zipWith, List.take_zipWith, List.drop_zipWith]
  · rw [List.length_range', List.length_replicate]
  · rw [List.length_take, List.length_take, List.length_map, hlength]

theorem insertMapping_ends (h : d.WellFormed) {first count : ℕ} (hfirst : first ≤ d.sectionCount)
    {items : List SectionItem} (hitems : items.length = d.sectionCount + count) :
  ∃ v l, d.insertMapping first count = .ok (v, l)
    ∧ (v = [] ∧ l = [] ∨ Inverse l v ∧ l.length = items.length)
    ∧ (if l.isEmpty then List.range items.length else l) = widened first count d.logicals
  := by
  unfold insertMapping
  rcases h.mapping with ⟨hvisual, hlogical⟩ | ⟨hinverse, hlength⟩
  · rw [hvisual, hlogical]
    refine ⟨[], [], rfl, .inl ⟨rfl, rfl⟩, ?_⟩
    rw [logicals, hlogical, hitems]
    exact (widened_range hfirst).symm
  · have hvisuals := hinverse.length_eq.trans hlength
    by_cases hempty : d.sectionCount = 0
    · have hvisual := List.length_eq_zero_iff.mp (hvisuals.trans hempty)
      have hlogical := List.length_eq_zero_iff.mp (hlength.trans hempty)
      rw [hvisual, hlogical]
      refine ⟨[], [], rfl, .inl ⟨rfl, rfl⟩, ?_⟩
      rw [logicals, hlogical, hitems]
      exact (widened_range hfirst).symm
    · have heq : d.logicals = d.logicalIndices := isEmpty_eq_of_length hlength
      have hif : !d.visualIndices.isEmpty ∧ !d.logicalIndices.isEmpty := by
        simp only [Bool.not_eq_true', List.isEmpty_eq_false_iff, ne_eq, ← List.length_eq_zero_iff]
        omega
      refine ⟨widened first count d.visualIndices, widened first count d.logicalIndices, ?_,
        .inr ⟨hinverse.widen (hlength ▸ hfirst), ?_⟩, ?_⟩
      · rw [if_pos hif, insertIndices_eq count (by rw [List.length_map]; omega), ok_bind,
          insertIndices_eq count (by rw [List.length_map]; omega), ok_bind]
        rfl
      · rw [length_widened, hlength, hitems]
      · rw [isEmpty_eq_of_length (by rw [length_widened, hlength, hitems]), heq]

/-- The stores of a header with new sections agree. -/
theorem WellFormed.insert (h : d.WellFormed) {first count : ℕ} (hfirst : first ≤ d.sectionCount)
    {v l : List ℕ} {sizes : SectionSizes} (section' : SectionItem) (sortIndicatorSection : ℤ)
    (hmapping : v = [] ∧ l = [] ∨ Inverse l v ∧ l.length = d.sectionCount + count)
    (hlogicals : (if l.isEmpty then List.range (d.sectionCount + count) else l)
      = widened first count d.logicals)
    (hsizes : ∀ k, sizes.lookup k = if k < first then d.hiddenSectionSize.lookup k
      else if k < first + count then none else d.hiddenSectionSize.lookup (k - count))
    (hhidden : section'.isHidden = false) {d' : QHeaderView}
    (hd' : d' = { d with
      sortIndicatorSection := sortIndicatorSection,
      sectionItems := d.sectionItems.take first
        ++ (List.replicate count section' ++ d.sectionItems.drop first),
      visualIndices := v,
      logicalIndices := l,
      hiddenSectionSize := sizes }) :
  d'.WellFormed
    ∧ d'.sections = (d.sections.map fun s =>
            { s with logical := if first ≤ s.logical then s.logical + count else s.logical }
          ).take first
        ++ (List.range' first count).map (fun i =>
          (⟨i, section'.size, section'.resizeMode, none⟩ : HeaderSection))
        ++ (d.sections.map fun s =>
            { s with logical := if first ≤ s.logical then s.logical + count else s.logical }
          ).drop first
  := by
  have hcount : d'.sectionCount = d.sectionCount + count := by
    rw [hd', sectionCount, List.length_append, List.length_append, List.length_take,
      List.length_replicate, List.length_drop]
    change first ≤ d.sectionItems.length at hfirst
    change _ = d.sectionItems.length + count
    omega
  have htagged : d'.tagged = (d.tagged.map (Prod.map (raise first count) id)).take first
      ++ (List.range' first count).map (fun i => (i, section'))
      ++ (d.tagged.map (Prod.map (raise first count) id)).drop first := by
    rw [tagged, logicals, hcount, hd']
    dsimp only
    rw [hlogicals]
    exact zip_widened h.length_logicals first count section'
  have hraise : ∀ k, sizes.lookup (raise first count k) = d.hiddenSectionSize.lookup k := by
    intro k
    rcases Nat.lt_or_ge k first with hk | hk
    · have heq : raise first count k = k := if_neg (by omega)
      rw [hsizes, heq, if_pos hk]
    · have heq : raise first count k = k + count := if_pos hk
      rw [hsizes, heq, if_neg (by omega), if_neg (by omega), Nat.add_sub_cancel]
  have hnew : ∀ k, first ≤ k → k < first + count → sizes.lookup k = none := by
    intro k hge hlt
    rw [hsizes, if_neg (by omega), if_pos hlt]
  have hsizes' : d'.hiddenSectionSize = sizes := by rw [hd']
  constructor
  · refine ⟨?_, ?_, ?_⟩
    · rw [hcount, hd']
      exact hmapping
    · rw [htagged, hsizes']
      intro x hx
      have hold : x ∈ d.tagged.map (Prod.map (raise first count) id) →
          x.2.isHidden = (sizes.lookup x.1).isSome := by
        intro hmem
        obtain ⟨y, hy, rfl⟩ := List.mem_map.mp hmem
        change y.2.isHidden = (sizes.lookup (raise first count y.1)).isSome
        rw [hraise]
        exact h.flags y hy
      rcases List.mem_append.mp hx with hx | hx
      · rcases List.mem_append.mp hx with hx | hx
        · exact hold (List.mem_of_mem_take hx)
        · obtain ⟨k, hk, rfl⟩ := List.mem_map.mp hx
          rw [List.mem_range'_1] at hk
          rw [hnew k hk.1 hk.2]
          exact hhidden
      · exact hold (List.mem_of_mem_drop hx)
    · intro k hk
      rw [hsizes', hsizes] at hk
      rw [hcount]
      split at hk
      next => exact Nat.lt_add_right count (h.keys k hk)
      next =>
        split at hk
        next => cases hk
        next =>
          have hlt := h.keys _ hk
          omega
  · have hsection : ∀ x, toSection sizes (Prod.map (raise first count) id x)
        = { toSection d.hiddenSectionSize x with
            logical := if first ≤ x.1 then x.1 + count else x.1 } := by
      intro x
      rw [toSection, toSection, ← hraise x.1]
      rfl
    have hothers : (d.tagged.map (Prod.map (raise first count) id)).map (toSection sizes)
        = d.sections.map fun s =>
          { s with logical := if first ≤ s.logical then s.logical + count else s.logical } := by
      rw [sections, List.map_map, List.map_map]
      exact List.map_congr_left fun x _ => hsection x
    rw [sections, htagged, hsizes', List.map_append, List.map_append, List.map_take,
      List.map_drop, hothers, List.map_map]
    congr 2
    apply List.map_congr_left
    intro k hk
    rw [List.mem_range'_1] at hk
    rw [Function.comp_apply, toSection, hnew k hk.1 hk.2]

theorem sectionsInserted_ends (h : d.WellFormed) (isRoot : Bool)
    {modelSectionCount first last : ℕ} (hle : first ≤ last) (hfirst : first ≤ d.sectionCount) :
  ∃ d', d.sectionsInserted isRoot modelSectionCount first last = .ok d' ∧ d'.WellFormed
    ∧ d'.sizes = d.sizes
    ∧ d'.sections = HeaderSections.step d.sizes d.sections
      (.sectionsInserted isRoot modelSectionCount first last)
  := by
  rw [sectionsInserted, HeaderSections.step, h.length_sections]
  by_cases hnone : !isRoot ∨ modelSectionCount = d.sectionCount
  · rw [if_pos hnone, if_neg]
    · exact ⟨d, rfl, h, rfl, rfl⟩
    · rintro ⟨hroot, hne, -⟩
      rw [hroot] at hnone
      exact hne (hnone.resolve_left Bool.false_ne_true)
  · have hsome : isRoot = true ∧ modelSectionCount ≠ d.sectionCount := by
      rw [not_or, Bool.not_eq_true', Bool.not_eq_false] at hnone
      exact hnone
    have hspec : (if isRoot = true ∧ modelSectionCount ≠ d.sectionCount ∧ first ≤ last
          ∧ first ≤ d.sectionCount then
        HeaderSections.inserted d.sizes first (last + 1 - first) d.sections else d.sections)
        = HeaderSections.inserted d.sizes first (last + 1 - first) d.sections :=
      if_pos ⟨hsome.1, hsome.2, hle, hfirst⟩
    rw [if_neg hnone, hspec]
    generalize last + 1 - first = count
    dsimp only
    set section' : SectionItem :=
      ⟨BitVec.ofInt 20 d.defaultSectionSize, false, d.globalResizeMode⟩ with hsection
    set items : List SectionItem := if d.sectionItems.isEmpty ∨ d.sectionItems.length ≤ first then
        d.sectionItems ++ List.replicate count section'
      else d.sectionItems.take first
        ++ (List.replicate count section' ++ d.sectionItems.drop first) with hdef
    have hitems : items = d.sectionItems.take first
        ++ (List.replicate count section' ++ d.sectionItems.drop first) := by
      rw [hdef]
      split
      next hend =>
        have hge : d.sectionItems.length ≤ first := by
          rcases hend with hempty | hge
          · rw [List.isEmpty_iff.mp hempty]
            exact Nat.zero_le first
          · exact hge
        rw [List.take_of_length_le hge, List.drop_of_length_le hge, List.append_nil]
      next => rfl
    have hlength : items.length = d.sectionCount + count := by
      rw [hitems, List.length_append, List.length_append, List.length_take,
        List.length_replicate, List.length_drop]
      change first ≤ d.sectionItems.length at hfirst
      change _ = d.sectionItems.length + count
      omega
    obtain ⟨v, l, hrun, hmapping, hlogicals⟩ := insertMapping_ends h hfirst hlength
    rw [hlength] at hmapping hlogicals
    obtain ⟨hdone, hsections⟩ := h.insert hfirst section' _ hmapping hlogicals
      (WellFormed.lookup_inserted first count) rfl rfl
    rw [hrun, ok_bind, hitems]
    exact ⟨_, rfl, hdone, rfl, hsections⟩

end QHeaderView
