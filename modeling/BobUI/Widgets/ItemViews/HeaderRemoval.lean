import BobUI.Widgets.ItemViews.HeaderHiding

/-!
# Removal of sections

The sections of a range of logical indexes are removed from all stores: the sizes of the hidden
sections that stay get lower indexes, and the indexes and the sections lose those of the range,
by different loops for one section and for several.
-/

namespace QHeaderView

open IndexLists

variable {d : QHeaderView}

/-! ### The hidden sections -/

theorem keepHidden_ends
    (h : ∀ l < d.sectionCount, d.isSectionHidden l = .ok (d.hiddenSectionSize.lookup l).isSome)
    (changeCount turns : ℕ) {i : ℕ} (hi : i + turns ≤ d.sectionCount) (hchange : changeCount ≤ i)
    (sizes : SectionSizes) :
  ∃ sizes' : SectionSizes, keepHidden changeCount turns i (d, sizes) = .ok (d, sizes')
    ∧ ∀ k, sizes'.lookup k
      = if i ≤ k + changeCount ∧ k + changeCount < i + turns then
          (d.hiddenSectionSize.lookup (k + changeCount)).or (sizes.lookup k)
        else sizes.lookup k
  := by
  induction turns generalizing i sizes with
  | zero =>
    refine ⟨sizes, rfl, fun k => ?_⟩
    rw [if_neg (by omega)]
  | succ turns ih =>
    rw [keepHidden, h i (by omega), ok_bind]
    cases hlookup : d.hiddenSectionSize.lookup i with
    | none =>
      rw [Option.isSome_none, if_neg Bool.false_ne_true]
      obtain ⟨sizes', hrun, hsizes'⟩ := ih (by omega : i + 1 + turns ≤ _) (by omega) sizes
      refine ⟨sizes', hrun, fun k => ?_⟩
      rw [hsizes']
      by_cases hk : k + changeCount = i
      · rw [if_neg (by omega), if_pos (by omega), hk, hlookup, Option.none_or]
      · by_cases hin : i ≤ k + changeCount ∧ k + changeCount < i + (turns + 1)
        · rw [if_pos hin, if_pos (by omega)]
        · rw [if_neg hin, if_neg (by omega)]
    | some size =>
      rw [Option.isSome_some, if_pos rfl, subscript, hlookup]
      obtain ⟨sizes', hrun, hsizes'⟩ := ih (by omega : i + 1 + turns ≤ _) (by omega)
        (sizes.insert (i - changeCount) size)
      refine ⟨sizes', hrun, fun k => ?_⟩
      rw [hsizes']
      by_cases hk : k + changeCount = i
      · rw [if_neg (by omega), if_pos (by omega), hk, hlookup, Option.some_or,
          show k = i - changeCount by omega, AList.lookup_insert]
      · have hne : k ≠ i - changeCount := by omega
        rw [AList.lookup_insert_ne hne]
        by_cases hin : i ≤ k + changeCount ∧ k + changeCount < i + (turns + 1)
        · rw [if_pos hin, if_pos (by omega)]
        · rw [if_neg hin, if_neg (by omega)]

variable {first last : ℕ} {l : List ℕ} {items : List SectionItem}

theorem updateHiddenSections_ends (h : d.WellFormed) (hle : first ≤ last)
    (hlast : last < d.sectionCount) :
  ∃ sizes, d.updateHiddenSections first last = .ok { d with hiddenSectionSize := sizes }
    ∧ ∀ k, sizes.lookup k
      = d.hiddenSectionSize.lookup (if k < first then k else k + (last + 1 - first))
  := by
  have hhidden := fun l (hl : l < d.sectionCount) => h.isSectionHidden_eq hl
  obtain ⟨sizes, hrun, hsizes⟩ := keepHidden_ends hhidden 0 first
    (by omega : 0 + first ≤ d.sectionCount) (Nat.le_refl 0) ∅
  obtain ⟨sizes', hrun', hsizes'⟩ := keepHidden_ends hhidden (last + 1 - first)
    (d.sectionCount - (last + 1)) (by omega : last + 1 + _ ≤ d.sectionCount) (by omega) sizes
  refine ⟨sizes', ?_, fun k => ?_⟩
  · rw [updateHiddenSections]
    dsimp only
    rw [hrun, ok_bind]
    dsimp only
    rw [hrun', ok_bind]
    rfl
  · rw [hsizes', hsizes]
    by_cases hk : k < first
    · rw [if_neg (by omega), if_pos (by omega), if_pos hk, AList.lookup_empty, Option.or_none,
        Nat.add_zero]
    · rw [if_neg hk, if_neg (by omega : ¬ (0 ≤ k + 0 ∧ k + 0 < 0 + first)), AList.lookup_empty,
        Option.or_none]
      split
      next => rfl
      next hout =>
        have hnone := mt (h.keys (k + (last + 1 - first))) (by omega)
        rw [Bool.not_eq_true, Option.isSome_eq_false_iff, Option.isNone_iff_eq_none] at hnone
        exact hnone.symm

/-! ### The loops -/

/-- The loop for one section, from a visual index on: the indexes above the one that is removed
are lower by one, as far as the loop has come. -/
theorem removeIndex_ends {v : List ℕ} (h : Inverse l v) (logical visual turns i : ℕ)
    (hi : i + turns = l.length) {l' v' : List ℕ}
    (hl : ∀ j : ℕ, l'[j]? = l[j]?.map fun k => if j < i then lower logical k else k)
    (hv : ∀ k : ℕ, v'[k]? = v[k]?.map fun j => if j < i then lower visual j else j) :
  removeIndex logical visual turns i (v', l')
    = .ok (v.map (lower visual), l.map (lower logical))
  := by
  induction turns generalizing i l' v' with
  | zero =>
    have hv' : v' = v.map (lower visual) := by
      apply List.ext_getElem?
      intro k
      rw [hv, List.getElem?_map]
      apply Option.map_congr
      intro j hj
      rw [if_pos]
      obtain ⟨hlt, -⟩ := List.getElem?_eq_some_iff.mp (h.symm.at_eq k j hj)
      omega
    have hl' : l' = l.map (lower logical) := by
      apply List.ext_getElem?
      intro j
      rw [hl, List.getElem?_map]
      apply Option.map_congr
      intro k hk
      rw [if_pos]
      obtain ⟨hlt, -⟩ := List.getElem?_eq_some_iff.mp hk
      omega
    rw [removeIndex, hv', hl']
  | succ turns ih =>
    obtain ⟨other, hother⟩ : ∃ k, l[i]? = some k := ⟨_, List.getElem?_eq_getElem (by omega)⟩
    have hat := h.at_eq i other hother
    have hfetch : l'[i]? = some other := by
      rw [hl, hother, Option.map_some, if_neg (Nat.lt_irrefl i)]
    have hfetch' : v'[other]? = some i := by
      rw [hv, hat, Option.map_some, if_neg (Nat.lt_irrefl i)]
    have hlt := (List.getElem?_eq_some_iff.mp hfetch).1
    have hlt' := (List.getElem?_eq_some_iff.mp hfetch').1
    -- Only the entry of this turn changes in each list.
    have hv' : ∀ k : ℕ, (if visual < i then v'.set other (i - 1) else v')[k]?
        = v[k]?.map fun j => if j < i + 1 then lower visual j else j := by
      intro k
      by_cases hk : other = k
      · rw [← hk, hat, Option.map_some, if_pos (Nat.lt_succ_self i), lower]
        split
        next => rw [List.getElem?_set_self hlt']
        next => exact hfetch'
      · have hsame : (if visual < i then v'.set other (i - 1) else v')[k]? = v'[k]? := by
          split
          next => exact List.getElem?_set_ne hk
          next => rfl
        rw [hsame, hv]
        apply Option.map_congr
        intro j hj
        have hne : j ≠ i := by
          rintro rfl
          exact hk (h.symm.inj hat hj)
        by_cases hji : j < i
        · rw [if_pos hji, if_pos (by omega)]
        · rw [if_neg hji, if_neg (by omega)]
    have hl' : ∀ j : ℕ, (if logical < other then l'.set i (other - 1) else l')[j]?
        = l[j]?.map fun k => if j < i + 1 then lower logical k else k := by
      intro j
      by_cases hj : i = j
      · rw [← hj, hother, Option.map_some, if_pos (Nat.lt_succ_self i), lower]
        split
        next => rw [List.getElem?_set_self hlt]
        next => exact hfetch
      · have hsame : (if logical < other then l'.set i (other - 1) else l')[j]? = l'[j]? := by
          split
          next => exact List.getElem?_set_ne hj
          next => rfl
        rw [hsame, hl]
        apply Option.map_congr
        intro k _
        by_cases hji : j < i
        · rw [if_pos hji, if_pos (by omega)]
        · rw [if_neg hji, if_neg (by omega)]
    have hnext := ih (i + 1) (by omega) hl' hv'
    rw [removeIndex, fetch_eq hfetch, ok_bind]
    by_cases hvisual : visual < i
    · rw [if_pos hvisual] at hnext ⊢
      rw [fetch_eq hfetch', ok_bind, store_eq hlt', ok_bind]
      dsimp only
      by_cases hlogical : logical < other
      · rw [if_pos hlogical] at hnext ⊢
        rw [store_eq hlt, ok_bind]
        exact hnext
      · rw [if_neg hlogical] at hnext ⊢
        exact hnext
    · rw [if_neg hvisual] at hnext ⊢
      rw [pure_bind]
      dsimp only
      by_cases hlogical : logical < other
      · rw [if_pos hlogical] at hnext ⊢
        rw [store_eq hlt, ok_bind]
        exact hnext
      · rw [if_neg hlogical] at hnext ⊢
        exact hnext

theorem markSections_eq (items : List SectionItem) (u : ℕ) (h : u + items.length ≤ l.length) :
  markSections l u items = .ok ((l.drop u).zip items)
  := by
  induction items generalizing u with
  | nil => rw [markSections, List.zip_nil_right]
  | cons item items ih =>
    rw [List.length_cons] at h
    have hu : u < l.length := by omega
    rw [markSections, fetch_eq (List.getElem?_eq_getElem hu), ok_bind,
      ih (u + 1) (by omega), ok_bind, List.drop_eq_getElem_cons hu, List.zip_cons_cons]
    rfl

/-- Whether a section stays. -/
def keeps (first last : ℕ) (x : ℕ × SectionItem) : Bool :=
  ¬ (first ≤ x.1 ∧ x.1 ≤ last)

theorem removeMarked_eq (first last : ℕ) (v : ℕ) {items : List (ℕ × SectionItem)}
    (h : v ≤ items.length) :
  removeMarked first last v items
    = .ok ((items.take v).filter (keeps first last) ++ items.drop v)
  := by
  induction v generalizing items with
  | zero => rfl
  | succ v ih =>
    have hitem := List.getElem?_eq_getElem h
    have hdrop := List.drop_eq_getElem_cons h
    have htake := List.take_succ_eq_append_getElem h
    generalize items[v] = item at hitem hdrop htake
    obtain ⟨tmpLogIdx, item⟩ := item
    rw [removeMarked, fetch_eq hitem, ok_bind, htake, List.filter_append]
    dsimp only
    split
    next hremoved =>
      have hfilter : [(tmpLogIdx, item)].filter (keeps first last) = [] := by
        simp [keeps, hremoved]
      have hlength : (items.take v).length = v := List.length_take_of_le (by omega)
      rw [ih (by rw [List.length_eraseIdx_of_lt h]; omega), hfilter, List.append_nil,
        List.eraseIdx_eq_take_drop_succ, List.take_left' hlength, List.drop_left' hlength]
    next hkept =>
      have hfilter : [(tmpLogIdx, item)].filter (keeps first last) = [(tmpLogIdx, item)] := by
        simp [keeps]
        omega
      rw [ih (by omega), hfilter, hdrop, List.append_assoc, List.singleton_append]

/-- The loop that restores the indexes, from a visual index on. -/
theorem restoreIndices_ends {changeCount : ℕ} {items : List (ℕ × SectionItem)} {logindex : List ℕ}
    (hlogindex : logindex = items.map fun x => if first < x.1 then x.1 - changeCount else x.1)
    (hnodup : logindex.Nodup) (hlt : ∀ k ∈ logindex, k < items.length) (turns w : ℕ)
    (hw : w + turns = items.length) {v : List ℕ} (hv : v.length = items.length)
    (hl : l.length = items.length)
    (hdone : ∀ (i k : ℕ), i < w → logindex[i]? = some k → v[k]? = some i ∧ l[i]? = some k) :
  ∃ v', restoreIndices first changeCount items turns w (v, l) = .ok (v', logindex)
    ∧ Inverse logindex v'
  := by
  have hlength : logindex.length = items.length := by
    rw [hlogindex, List.length_map]
  induction turns generalizing w v l with
  | zero =>
    have heq : l = logindex := by
      apply List.ext_getElem?
      intro i
      rcases Nat.lt_or_ge i items.length with hi | hi
      · have hk := List.getElem?_eq_getElem (hlength ▸ hi : i < logindex.length)
        rw [hk]
        exact (hdone i _ (by omega) hk).2
      · rw [List.getElem?_eq_none (by omega), List.getElem?_eq_none (by omega)]
    refine ⟨v, by rw [restoreIndices, heq], by omega, fun i k hk => ?_⟩
    obtain ⟨hi, -⟩ := List.getElem?_eq_some_iff.mp hk
    exact (hdone i k (by omega) hk).1
  | succ turns ih =>
    have hitem := List.getElem?_eq_getElem (by omega : w < items.length)
    generalize items[w] = x at hitem
    have hk : logindex[w]? = some (if first < x.1 then x.1 - changeCount else x.1) := by
      rw [hlogindex, List.getElem?_map, hitem]
      rfl
    rw [restoreIndices, fetch_eq hitem, ok_bind]
    obtain ⟨tmpLogIdx, item⟩ := x
    dsimp only at hk ⊢
    generalize (if first < tmpLogIdx then tmpLogIdx - changeCount else tmpLogIdx) = k at hk
    have hbound := hlt k (List.mem_of_getElem? hk)
    rw [store_eq (hv ▸ hbound), ok_bind, store_eq (by omega), ok_bind]
    apply ih (w + 1) (by omega) (by rw [List.length_set, hv]) (by rw [List.length_set, hl])
    intro i m hi hm
    rcases Nat.lt_or_ge i w with hiw | hiw
    · have hne : k ≠ m := by
        rintro rfl
        have hinj := (List.nodup_iff_getElem?_ne_getElem?.mp hnodup) i w hiw (by omega)
        rw [hm, hk] at hinj
        exact hinj rfl
      rw [List.getElem?_set_ne hne, List.getElem?_set_ne (by omega)]
      exact hdone i m hiw hm
    · have heq : i = w := by omega
      rw [heq, hk, Option.some.injEq] at hm
      rw [heq, ← hm]
      exact ⟨List.getElem?_set_self (by omega), List.getElem?_set_self (by omega)⟩

/-! ### The sections that stay -/

/-- The logical index of a section after the removal. -/
def lowered (first last k : ℕ) : ℕ :=
  if last < k then k - (last + 1 - first) else k

/-- The sections that stay, with their new logical indexes. -/
def remaining (first last : ℕ) (items : List (ℕ × SectionItem)) : List (ℕ × SectionItem) :=
  (items.filter (keeps first last)).map (Prod.map (lowered first last) id)

/-- The indexes that stay are those of a shorter range. -/
theorem lowered_range {n : ℕ} (hle : first ≤ last) (hlast : last < n) :
  ((List.range n).filter fun k => ¬ (first ≤ k ∧ k ≤ last)).map (lowered first last)
    = List.range (n - (last + 1 - first))
  := by
  rw [filter_eq_of_range (a := first) (b := last + 1) (by omega)]
  · apply List.ext_getElem?
    intro i
    have htake : ((List.range n).take first).length = first := by
      rw [List.length_take, List.length_range]
      omega
    rw [List.getElem?_map, List.getElem?_append, htake, List.getElem?_drop]
    rcases Nat.lt_or_ge i (n - (last + 1 - first)) with hi | hi
    · rw [List.getElem?_range hi]
      split
      next hlt =>
        rw [List.getElem?_take_of_lt hlt, List.getElem?_range (by omega), Option.map_some, lowered,
          if_neg (by omega)]
      next hge =>
        rw [List.getElem?_range (by omega), Option.map_some, lowered, if_pos (by omega)]
        congr 1
        omega
    · rw [if_neg (by omega), List.getElem?_eq_none (by rw [List.length_range]; omega),
        List.getElem?_eq_none (by rw [List.length_range]; omega)]
      rfl
  · intro i k hk
    obtain ⟨hi, heq⟩ := List.getElem?_eq_some_iff.mp hk
    rw [List.getElem_range] at heq
    rw [← heq, decide_eq_false_iff_not]
    omega

theorem map_fst_remaining (first last : ℕ) (h : l.length = items.length) :
  (remaining first last (l.zip items)).map Prod.fst
    = (l.filter fun k => ¬ (first ≤ k ∧ k ≤ last)).map (lowered first last)
  := by
  have hfst : (l.zip items).map Prod.fst = l := List.map_fst_zip (Nat.le_of_eq h)
  conv =>
    rhs
    rw [← hfst, List.filter_map, List.map_map]
  rw [remaining, List.map_map]
  rfl

/-- The logical indexes of the sections that stay are those of a shorter header. -/
theorem WellFormed.remaining_perm (h : d.WellFormed) (hle : first ≤ last)
    (hlast : last < d.sectionCount) :
  ((remaining first last d.tagged).map Prod.fst).Perm
    (List.range (d.sectionCount - (last + 1 - first)))
  := by
  rw [tagged, map_fst_remaining first last h.length_logicals, ← lowered_range hle hlast]
  have hperm := h.inverse.perm
  rw [h.length_logicals] at hperm
  exact (hperm.filter _).map _

theorem WellFormed.length_remaining (h : d.WellFormed) (hle : first ≤ last)
    (hlast : last < d.sectionCount) :
  (remaining first last d.tagged).length = d.sectionCount - (last + 1 - first)
  := by
  have hlength := (h.remaining_perm hle hlast).length_eq
  rwa [List.length_map, List.length_range] at hlength

theorem zip_remaining {l' : List ℕ} {items' : List SectionItem} (h : l.length = items.length)
    (hl : (l.filter fun k => ¬ (first ≤ k ∧ k ≤ last)).map (lowered first last) = l')
    (hitems : ((l.zip items).filter (keeps first last)).map Prod.snd = items') :
  l'.zip items' = remaining first last (l.zip items)
  := by
  rw [← hl, ← hitems, ← map_fst_remaining first last h]
  have hsnd : ((l.zip items).filter (keeps first last)).map Prod.snd
      = (remaining first last (l.zip items)).map Prod.snd := by
    rw [remaining, List.map_map]
    rfl
  rw [hsnd, List.zip_map', List.map_id'']
  exact fun x => rfl

/-- The sections that stay, where those that go lie together. -/
theorem map_snd_filter {a b : ℕ} (hle : a ≤ b) (h : l.length = items.length)
    (hrange : ∀ i k : ℕ, l[i]? = some k → (first ≤ k ∧ k ≤ last ↔ a ≤ i ∧ i < b)) :
  ((l.zip items).filter (keeps first last)).map Prod.snd = items.take a ++ items.drop b
  := by
  have hsnd : (l.zip items).map Prod.snd = items := List.map_snd_zip (Nat.le_of_eq h.symm)
  rw [filter_eq_of_range hle, List.map_append, List.map_take, List.map_drop, hsnd]
  intro i x hx
  rw [keeps, decide_eq_false_iff_not, not_not]
  exact hrange i x.1 (List.getElem?_zip_eq_some.mp hx).1

/-- Some sections are removed where no mapping is stored. -/
theorem removeSections_unmapped (h : d.WellFormed) (hle : first ≤ last)
    (hlast : last < d.sectionCount) (sizes : SectionSizes) (hvisual : d.visualIndices = [])
    (hlogical : d.logicalIndices = []) :
  ∃ items, removeSections first last { d with hiddenSectionSize := sizes }
      = .ok { d with hiddenSectionSize := sizes, sectionItems := items }
    ∧ items.length = d.sectionCount - (last + 1 - first)
    ∧ (List.range items.length).zip items = remaining first last d.tagged
  := by
  have hlogicals : d.logicals = List.range d.sectionCount := by
    rw [logicals, hlogical]
    rfl
  have hitems : (d.sectionItems.take first ++ d.sectionItems.drop (last + 1)).length
      = d.sectionCount - (last + 1 - first) := by
    change last < d.sectionItems.length at hlast
    rw [List.length_append, List.length_take, List.length_drop, sectionCount]
    omega
  refine ⟨_, ?_, hitems, ?_⟩
  · unfold removeSections removeSectionsFromSectionItems
    dsimp only
    change last < d.sectionItems.length at hlast
    rw [hvisual, hlogical, if_pos ⟨rfl, rfl⟩, if_neg (by omega)]
  · apply zip_remaining h.length_logicals
    · rw [hitems, hlogicals, lowered_range hle hlast]
    · apply map_snd_filter (by omega) h.length_logicals
      intro i k hk
      rw [hlogicals] at hk
      obtain ⟨_, heq⟩ := List.getElem?_eq_some_iff.mp hk
      rw [List.getElem_range] at heq
      omega

/-- One section is removed. -/
theorem removeSections_one (h : d.WellFormed) (hfirst : first < d.sectionCount)
    (sizes : SectionSizes) (hinverse : Inverse d.logicalIndices d.visualIndices)
    (hlength : d.logicalIndices.length = d.sectionCount) :
  ∃ v l items, removeSections first first { d with hiddenSectionSize := sizes }
      = .ok { d with
        hiddenSectionSize := sizes, visualIndices := v, logicalIndices := l, sectionItems := items }
    ∧ Inverse l v ∧ l.length = items.length ∧ items.length = d.sectionCount - 1
    ∧ l.zip items = remaining first first d.tagged
  := by
  have hlogicals : d.logicals = d.logicalIndices := isEmpty_eq_of_length hlength
  have hvisuals := hinverse.length_eq.trans hlength
  obtain ⟨visual, hvisual⟩ : ∃ i, d.visualIndices[first]? = some i :=
    ⟨_, List.getElem?_eq_getElem (by omega)⟩
  have hk := hinverse.symm.at_eq first visual hvisual
  have hlt := (List.getElem?_eq_some_iff.mp hk).1
  have hrun : removeIndex first visual d.sectionCount 0 (d.visualIndices, d.logicalIndices)
      = .ok (d.visualIndices.map (lower visual), d.logicalIndices.map (lower first)) :=
    removeIndex_ends hinverse first visual d.sectionCount 0 (by omega) (fun j => by simp)
      (fun k => by simp)
  have hrange : ∀ i k : ℕ, d.logicals[i]? = some k →
      (first ≤ k ∧ k ≤ first ↔ visual ≤ i ∧ i < visual + 1) := by
    intro i k hi
    rw [hlogicals] at hi
    constructor
    · intro heq
      have hsame := hinverse.inj hi ((by omega : first = k) ▸ hk)
      omega
    · intro heq
      rw [show i = visual by omega, hk, Option.some.injEq] at hi
      omega
  have hitems : (d.sectionItems.take visual ++ d.sectionItems.drop (visual + 1)).length
      = d.sectionCount - 1 := by
    rw [List.length_append, List.length_take, List.length_drop]
    change _ = d.sectionItems.length - 1
    change _ = d.sectionItems.length at hlength
    omega
  have herased : ((d.logicalIndices.map (lower first)).eraseIdx visual).length
      = d.sectionCount - 1 := by
    rw [List.length_eraseIdx_of_lt (by rwa [List.length_map]), List.length_map, hlength]
  refine ⟨_, _, _, ?_, hinverse.erase hk, herased.trans hitems.symm, hitems, ?_⟩
  · unfold removeSections
    dsimp only
    have hnonempty : ¬ (d.visualIndices.isEmpty ∧ d.logicalIndices.isEmpty) := by
      rw [List.isEmpty_iff, List.isEmpty_iff, ← List.length_eq_zero_iff]
      omega
    have hsame : ¬ d.sectionItems.length ≠ d.logicalIndices.length := not_not.mpr hlength.symm
    change visual < d.logicalIndices.length at hlt
    rw [if_neg hnonempty, if_pos rfl, fetch_eq hvisual, ok_bind]
    unfold sectionCount at hrun ⊢
    dsimp only
    rw [if_neg hsame, hrun, ok_bind]
    dsimp only
    rw [removeSectionsFromSectionItems, if_neg (by dsimp only; omega)]
  · apply zip_remaining h.length_logicals
    · have hfilter : (d.logicals.filter fun k => ¬ (first ≤ k ∧ k ≤ first))
          = d.logicals.take visual ++ d.logicals.drop (visual + 1) := by
        apply filter_eq_of_range (Nat.le_succ visual)
        intro i k hi
        rw [decide_eq_false_iff_not, not_not]
        exact hrange i k hi
      have hlowered : lowered first first = lower first := by
        funext k
        rw [lowered, lower, Nat.add_sub_cancel_left]
      rw [hfilter, ← List.eraseIdx_eq_take_drop_succ, hlowered, List.eraseIdx_map, hlogicals]
    · exact map_snd_filter (Nat.le_succ visual) h.length_logicals hrange

/-- Several sections are removed. -/
theorem removeSections_several (h : d.WellFormed) (hlt : first < last)
    (hlast : last < d.sectionCount) (sizes : SectionSizes)
    (hinverse : Inverse d.logicalIndices d.visualIndices)
    (hlength : d.logicalIndices.length = d.sectionCount) :
  ∃ v l items, removeSections first last { d with hiddenSectionSize := sizes }
      = .ok { d with
        hiddenSectionSize := sizes, visualIndices := v, logicalIndices := l, sectionItems := items }
    ∧ Inverse l v ∧ l.length = items.length ∧ items.length = d.sectionCount - (last + 1 - first)
    ∧ l.zip items = remaining first last d.tagged
  := by
  have hlogicals : d.logicals = d.logicalIndices := isEmpty_eq_of_length hlength
  have hvisuals := hinverse.length_eq.trans hlength
  have htagged : d.tagged = d.logicalIndices.zip d.sectionItems := by
    rw [tagged, hlogicals]
  set kept := d.tagged.filter (keeps first last) with hkept
  have hlogindex : (remaining first last d.tagged).map Prod.fst
      = kept.map fun x => if first < x.1 then x.1 - (last + 1 - first) else x.1 := by
    rw [remaining, List.map_map]
    apply List.map_congr_left
    intro x hx
    have hkeeps := (List.mem_filter.mp hx).2
    rw [keeps, decide_eq_true_iff] at hkeeps
    change lowered first last x.1 = _
    rw [lowered]
    by_cases habove : last < x.1
    · rw [if_pos habove, if_pos (by omega)]
    · rw [if_neg habove, if_neg (by omega)]
  have hcount : kept.length = d.sectionCount - (last + 1 - first) := by
    rw [← h.length_remaining (Nat.le_of_lt hlt) hlast, remaining, List.length_map]
  have hperm := h.remaining_perm (Nat.le_of_lt hlt) hlast
  have hresize : ∀ l : List ℕ, l.length = d.sectionCount →
      (resize l kept.length).length = kept.length := by
    intro l hl
    rw [resize, List.length_append, List.length_take, List.length_replicate]
    omega
  obtain ⟨v, hrun, hinverse'⟩ := restoreIndices_ends hlogindex
    (hperm.nodup_iff.mpr List.nodup_range)
    (fun k hk => by
      rw [hperm.mem_iff, List.mem_range] at hk
      omega)
    kept.length 0 (Nat.zero_add _) (hresize d.visualIndices hvisuals)
    (hresize d.logicalIndices hlength) (fun i k hi => absurd hi (Nat.not_lt_zero i))
  have hitems : (kept.map Prod.snd).length = d.sectionCount - (last + 1 - first) := by
    rw [List.length_map, hcount]
  refine ⟨v, _, kept.map Prod.snd, ?_, hinverse', ?_, hitems, ?_⟩
  · have hnonempty : ¬ (d.visualIndices.isEmpty ∧ d.logicalIndices.isEmpty) := by
      rw [List.isEmpty_iff, List.isEmpty_iff, ← List.length_eq_zero_iff]
      omega
    have hmark := markSections_eq (l := d.logicalIndices) d.sectionItems 0
      (by rw [Nat.zero_add, hlength]; exact Nat.le_refl _)
    rw [List.drop_zero, ← htagged] at hmark
    have hmarked := removeMarked_eq first last d.tagged.length (Nat.le_refl d.tagged.length)
    rw [List.take_length, List.drop_length, List.append_nil, ← hkept] at hmarked
    unfold removeSections
    dsimp only
    rw [if_neg hnonempty, if_neg (Nat.ne_of_lt hlt), hmark, ok_bind, hmarked, ok_bind, hrun,
      ok_bind]
    rfl
  · rw [List.length_map, remaining, List.length_map, List.length_map]
  · apply zip_remaining h.length_logicals _ rfl
    rw [tagged, map_fst_remaining first last h.length_logicals]

/-- The sections of a range are removed from the lists of indexes and from the sections. -/
theorem removeSections_ends (h : d.WellFormed) (hle : first ≤ last)
    (hlast : last < d.sectionCount) (sizes : SectionSizes) :
  ∃ v l items, removeSections first last { d with hiddenSectionSize := sizes }
      = .ok { d with
        hiddenSectionSize := sizes, visualIndices := v, logicalIndices := l, sectionItems := items }
    ∧ (v = [] ∧ l = [] ∨ Inverse l v ∧ l.length = items.length)
    ∧ items.length = d.sectionCount - (last + 1 - first)
    ∧ (if l.isEmpty then List.range items.length else l).zip items
      = remaining first last d.tagged
  := by
  rcases h.mapping with ⟨hvisual, hlogical⟩ | ⟨hinverse, hlength⟩
  · obtain ⟨items, hrun, hitems, hzip⟩ :=
      removeSections_unmapped h hle hlast sizes hvisual hlogical
    refine ⟨[], [], items, ?_, .inl ⟨rfl, rfl⟩, hitems, hzip⟩
    rw [hrun, hvisual, hlogical]
  · rcases Nat.eq_or_lt_of_le hle with rfl | hlt
    · obtain ⟨v, l, items, hrun, hinverse', hsame, hitems, hzip⟩ :=
        removeSections_one h hlast sizes hinverse hlength
      refine ⟨v, l, items, hrun, .inr ⟨hinverse', hsame⟩, by rw [hitems]; omega, ?_⟩
      rw [isEmpty_eq_of_length hsame, hzip]
    · obtain ⟨v, l, items, hrun, hinverse', hsame, hitems, hzip⟩ :=
        removeSections_several h hlt hlast sizes hinverse hlength
      refine ⟨v, l, items, hrun, .inr ⟨hinverse', hsame⟩, hitems, ?_⟩
      rw [isEmpty_eq_of_length hsame, hzip]

/-- The stores of a header without some sections agree. -/
theorem WellFormed.remove (h : d.WellFormed) (hle : first ≤ last) (hlast : last < d.sectionCount)
    {v : List ℕ} {sizes : SectionSizes}
    (hmapping : v = [] ∧ l = [] ∨ Inverse l v ∧ l.length = items.length)
    (hitems : items.length = d.sectionCount - (last + 1 - first))
    (hzip : (if l.isEmpty then List.range items.length else l).zip items
      = remaining first last d.tagged) (hsizes : ∀ k, sizes.lookup k
      = d.hiddenSectionSize.lookup (if k < first then k else k + (last + 1 - first)))
    {d' : QHeaderView} (hd' : d' = { d with
      hiddenSectionSize := sizes, visualIndices := v, logicalIndices := l,
      sectionItems := items }) :
  d'.WellFormed ∧ d'.sections = HeaderSections.removed first last d.sections
  := by
  have htagged : d'.tagged = remaining first last d.tagged := by
    rw [hd']
    exact hzip
  have hcount : d'.sectionCount = d.sectionCount - (last + 1 - first) := by
    rw [hd']
    exact hitems
  have hsizes' : d'.hiddenSectionSize = sizes := by
    rw [hd']
  have hold : ∀ x ∈ d.tagged.filter (keeps first last),
      sizes.lookup (lowered first last x.1) = d.hiddenSectionSize.lookup x.1 := by
    intro x hx
    have hkeeps := (List.mem_filter.mp hx).2
    rw [keeps, decide_eq_true_iff] at hkeeps
    rw [hsizes]
    by_cases habove : last < x.1
    · have hlowered : lowered first last x.1 = x.1 - (last + 1 - first) := if_pos habove
      rw [hlowered, if_neg (by omega), Nat.sub_add_cancel (by omega)]
    · have hlowered : lowered first last x.1 = x.1 := if_neg habove
      rw [hlowered, if_pos (by omega)]
  constructor
  · refine ⟨?_, ?_, ?_⟩
    · rw [hd']
      exact hmapping
    · rw [htagged, hsizes']
      intro x hx
      obtain ⟨y, hy, rfl⟩ := List.mem_map.mp hx
      change y.2.isHidden = (sizes.lookup (lowered first last y.1)).isSome
      rw [hold y hy]
      exact h.flags y (List.mem_filter.mp hy).1
    · intro k hk
      rw [hsizes', hsizes] at hk
      have hlt := h.keys _ hk
      rw [hcount]
      split at hlt
      next => omega
      next => omega
  · have hfilter : d.sections.filter (fun s => ¬ (first ≤ s.logical ∧ s.logical ≤ last))
        = (d.tagged.filter (keeps first last)).map (toSection d.hiddenSectionSize) := by
      rw [sections, List.filter_map]
      rfl
    rw [sections, htagged, hsizes', HeaderSections.removed, hfilter, remaining, List.map_map,
      List.map_map]
    apply List.map_congr_left
    intro x hx
    change toSection sizes (lowered first last x.1, x.2) = _
    rw [toSection, hold x hx]
    rfl

theorem clear_ends (h : d.WellFormed) (hempty : d.sectionCount = 0) :
  d.clear.WellFormed ∧ d.clear.sizes = d.sizes ∧ d.clear.sections = d.sections
  := by
  rw [clear]
  split
  next => exact ⟨h, rfl, rfl⟩
  next =>
    refine ⟨⟨.inl ⟨rfl, rfl⟩, ?_, ?_⟩, rfl, ?_⟩
    · intro x hx
      cases hx
    · intro k hk
      rw [AList.lookup_empty] at hk
      cases hk
    · have hsections : d.sections = [] := by
        rw [← List.length_eq_zero_iff, h.length_sections, hempty]
      rw [hsections]
      rfl

theorem sectionsRemoved_ends (h : d.WellFormed) (isRoot : Bool) {first last : ℤ}
    (hle : first ≤ last) :
  ∃ d', d.sectionsRemoved isRoot first last = .ok d' ∧ d'.WellFormed ∧ d'.sizes = d.sizes
    ∧ d'.sections = HeaderSections.step d.sizes d.sections (.sectionsRemoved isRoot first last)
  := by
  rw [sectionsRemoved, HeaderSections.step, h.length_sections]
  cases isRoot with
  | false =>
    rw [if_pos (by rfl), if_neg (fun h => Bool.false_ne_true h.1)]
    exact ⟨d, rfl, h, rfl, rfl⟩
  | true =>
    rw [if_neg (by decide)]
    by_cases hrange : 0 ≤ first ∧ last < d.sectionCount
    · rw [if_neg (by omega)]
      obtain ⟨first, rfl⟩ := Int.eq_ofNat_of_zero_le hrange.1
      obtain ⟨last, rfl⟩ := Int.eq_ofNat_of_zero_le (hrange.1.trans hle)
      dsimp only
      rw [Int.toNat_natCast, Int.toNat_natCast]
      generalize (if (first : ℤ) ≤ d.sortIndicatorSection then
        if d.sortIndicatorSection ≤ (last : ℤ) then (-1 : ℤ)
        else d.sortIndicatorSection - (last - first + 1) else d.sortIndicatorSection) = sort
      rw [if_pos ⟨rfl, hrange.1, hle, hrange.2⟩]
      have hsort : WellFormed { d with sortIndicatorSection := sort } :=
        ⟨h.mapping, h.flags, h.keys⟩
      have hlast : last < d.sectionCount := by omega
      have hle' : first ≤ last := by omega
      obtain ⟨sizes, hupdate, hsizes⟩ := updateHiddenSections_ends hsort hle' hlast
      obtain ⟨v, l, items, hremove, hmapping, hitems, hzip⟩ :=
        removeSections_ends hsort hle' hlast sizes
      obtain ⟨hdone, hsections⟩ :=
        hsort.remove hle' hlast hmapping hitems hzip hsizes rfl
      rw [hupdate, ok_bind, hremove, ok_bind]
      refine ⟨_, rfl, ?_⟩
      split
      next hempty =>
        obtain ⟨hclear, hsame, hsections'⟩ := clear_ends hdone hempty
        exact ⟨hclear, hsame, hsections'.trans hsections⟩
      next => exact ⟨hdone, rfl, hsections⟩
    · rw [if_pos (by omega), if_neg (fun h => hrange ⟨h.2.1, h.2.2.2⟩)]
      exact ⟨d, rfl, h, rfl, rfl⟩

end QHeaderView
