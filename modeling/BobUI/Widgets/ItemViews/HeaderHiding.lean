import BobUI.Widgets.ItemViews.HeaderSections

/-!
# Sizes and hidden sections

Resizing and hiding change one section: the store by visual index and the hash by logical index
agree on it afterwards, and the other sections stay as they are.
-/

namespace HeaderSections

theorem update_of_notMem {logical : ℤ} (f : HeaderSection → HeaderSection)
    {sections : List HeaderSection} (h : ∀ s ∈ sections, (s.logical : ℤ) ≠ logical) :
  update logical f sections = sections
  := by
  apply (List.map_congr_left fun s hs => ?_).trans (List.map_id sections)
  exact if_neg (h s hs)

theorem update_update {logical : ℤ} {f g : HeaderSection → HeaderSection}
    (h : ∀ s, (f s).logical = s.logical) (sections : List HeaderSection) :
  update logical g (update logical f sections) = update logical (fun s => g (f s)) sections
  := by
  rw [update, update, List.map_map]
  apply List.map_congr_left
  intro s _
  rw [Function.comp_apply]
  by_cases hs : (s.logical : ℤ) = logical
  · rw [if_pos hs, if_pos hs, h, if_pos hs]
  · rw [if_neg hs, if_neg hs, if_neg hs]

end HeaderSections

namespace QHeaderView

open IndexLists

variable {d : QHeaderView}

/-! ### The section with a logical index -/

variable {l visual : ℕ} {item : SectionItem} {f : HeaderSection → HeaderSection}

theorem WellFormed.visualIndex_eq (h : d.WellFormed) (hl : l < d.sectionCount) :
  ∃ visual item, d.visualIndex l = .ok (some visual) ∧ d.logicals[visual]? = some l
    ∧ d.sectionItems[visual]? = some item
  := by
  have hlength : d.visuals.length = d.sectionCount := by
    rw [h.inverse.length_eq, h.length_logicals]
  have hat := List.getElem?_eq_getElem (hlength.symm ▸ hl)
  generalize d.visuals[l] = visual at hat
  have hlogical := h.inverse.symm.at_eq l visual hat
  obtain ⟨hvisual, -⟩ := List.getElem?_eq_some_iff.mp hlogical
  rw [h.length_logicals] at hvisual
  refine ⟨visual, _, ?_, hlogical, List.getElem?_eq_getElem hvisual⟩
  rw [QHeaderView.visualIndex, if_neg (by omega), Int.toNat_natCast]
  rcases h.mapping with ⟨hempty, -⟩ | ⟨hinverse, hcount⟩
  · rw [visuals, hempty] at hat
    obtain ⟨_, heq⟩ := List.getElem?_eq_some_iff.mp hat
    simp only [List.isEmpty_nil, if_true, List.getElem_range] at heq
    rw [hempty, heq]
    rfl
  · have hvisuals : d.visualIndices.length = d.sectionCount := hinverse.length_eq.trans hcount
    rw [visuals, isEmpty_eq_of_length hvisuals] at hat
    have hnonempty : ¬ d.visualIndices.isEmpty = true := by
      rw [List.isEmpty_iff]
      intro hempty
      rw [hempty] at hat
      cases hat
    rw [if_neg hnonempty, if_pos (by omega), fetch_eq hat, ok_bind, if_neg (by omega)]
    rfl

/-- The flag of a section is that of its size in the hash, of which no other size is read. -/
theorem WellFormed.isSectionHidden_sizes (h : d.WellFormed) (hl : l < d.sectionCount)
    {sizes : SectionSizes} (hsizes : sizes.lookup l = d.hiddenSectionSize.lookup l) :
  isSectionHidden { d with hiddenSectionSize := sizes } l = .ok (sizes.lookup l).isSome
  := by
  rw [isSectionHidden]
  split
  next hnone =>
    have hrange : ¬ ((l : ℤ) < 0 ∨ (d.sectionCount : ℤ) ≤ l) := by omega
    have hempty := hnone.resolve_right hrange
    rw [AList.lookup, List.isEmpty_iff.mp hempty]
    rfl
  next =>
    obtain ⟨visual, item, hvisual, hlogical, hitem⟩ := h.visualIndex_eq hl
    change (d.visualIndex l >>= _) = _
    rw [hvisual, ok_bind]
    change d.isVisualIndexHidden visual = _
    rw [isVisualIndexHidden_eq hitem, hsizes,
      h.flags _ (List.mem_of_getElem? (WellFormed.tagged_at hlogical hitem))]

theorem WellFormed.isSectionHidden_eq (h : d.WellFormed) (hl : l < d.sectionCount) :
  d.isSectionHidden l = .ok (d.hiddenSectionSize.lookup l).isSome
  := h.isSectionHidden_sizes hl rfl

/-- The hidden sections are those with a size in the hash. -/
theorem WellFormed.mem_hiddenSectionSize (h : d.WellFormed) :
  l ∈ d.hiddenSectionSize ↔ ∃ item, (l, item) ∈ d.tagged ∧ item.isHidden = true
  := by
  rw [← AList.lookup_isSome]
  constructor
  · intro hsome
    obtain ⟨visual, item, -, hlogical, hitem⟩ := h.visualIndex_eq (h.keys l hsome)
    have hmem := List.mem_of_getElem? (WellFormed.tagged_at hlogical hitem)
    exact ⟨item, hmem, (h.flags _ hmem).trans hsome⟩
  · rintro ⟨item, hmem, hhidden⟩
    exact (h.flags _ hmem).symm.trans hhidden

/-- The stores change about one section. -/
theorem WellFormed.adjust (h : d.WellFormed) (hl : d.logicals[visual]? = some l)
    (hitem : d.sectionItems[visual]? = some item) (item' : SectionItem) (sizes : SectionSizes)
    (hothers : ∀ k ≠ l, sizes.lookup k = d.hiddenSectionSize.lookup k)
    (hflag : item'.isHidden = (sizes.lookup l).isSome)
    (hf : f (toSection d.hiddenSectionSize (l, item)) = toSection sizes (l, item')) :
  WellFormed { d with
      sectionItems := d.sectionItems.set visual item', hiddenSectionSize := sizes }
    ∧ sections { d with
        sectionItems := d.sectionItems.set visual item', hiddenSectionSize := sizes }
      = HeaderSections.update l f d.sections
  := by
  have hcount : sectionCount { d with
      sectionItems := d.sectionItems.set visual item', hiddenSectionSize := sizes }
      = d.sectionCount := List.length_set
  have hlogicals : logicals { d with
      sectionItems := d.sectionItems.set visual item', hiddenSectionSize := sizes }
      = d.logicals := by
    rw [logicals, hcount]
    rfl
  have hvisual := (List.getElem?_eq_some_iff.mp hitem).1
  have htagged : ∀ i : ℕ, (tagged { d with
      sectionItems := d.sectionItems.set visual item', hiddenSectionSize := sizes })[i]?
      = if visual = i then some (l, item') else d.tagged[i]? := by
    intro i
    apply Option.ext
    intro x
    rw [tagged, hlogicals, List.getElem?_zip_eq_some, List.getElem?_set]
    by_cases hi : visual = i
    · rw [if_pos hi, if_pos hi, if_pos (hi ▸ hvisual), ← hi, hl, Option.some.injEq,
        Option.some.injEq, Option.some.injEq, Prod.ext_iff]
    · rw [if_neg hi, if_neg hi, tagged, List.getElem?_zip_eq_some]
  have hother : ∀ i x, visual ≠ i → d.tagged[i]? = some x → x.1 ≠ l := by
    rintro i x hi hx rfl
    exact hi (h.inverse.inj hl (List.getElem?_zip_eq_some.mp hx).1)
  refine ⟨⟨?_, ?_, ?_⟩, ?_⟩
  · rw [hcount]
    exact h.mapping
  · intro x hx
    obtain ⟨i, hi⟩ := List.mem_iff_getElem?.mp hx
    rw [htagged] at hi
    split at hi
    next =>
      cases hi
      exact hflag
    next hne =>
      rw [hothers x.1 (hother i x hne hi)]
      exact h.flags x (List.mem_of_getElem? hi)
  · intro k hk
    rw [hcount]
    by_cases heq : k = l
    · rw [heq, ← h.length_logicals]
      exact h.inverse.lt hl
    · rw [hothers k heq] at hk
      exact h.keys k hk
  · apply List.ext_getElem?
    intro i
    rw [sections, HeaderSections.update, sections, List.getElem?_map, List.getElem?_map,
      List.getElem?_map, htagged]
    by_cases hi : visual = i
    · rw [if_pos hi, ← hi, WellFormed.tagged_at hl hitem, Option.map_some, Option.map_some,
        Option.map_some]
      exact congrArg some ((if_pos rfl).trans hf).symm
    · rw [if_neg hi]
      cases hx : d.tagged[i]? with
      | none => rfl
      | some x =>
        have hne := hother i x hi hx
        rw [Option.map_some, Option.map_some, Option.map_some]
        refine congrArg some (Eq.trans ?_ (if_neg (mt Int.natCast_inj.mp hne)).symm)
        rw [toSection, toSection, hothers x.1 hne]

/-- No section has a logical index out of range. -/
theorem WellFormed.update_outside (h : d.WellFormed) {logical : ℤ}
    (hout : logical < 0 ∨ d.sectionCount ≤ logical) (f : HeaderSection → HeaderSection) :
  HeaderSections.update logical f d.sections = d.sections
  := by
  apply HeaderSections.update_of_notMem
  intro s hs
  obtain ⟨x, hx, rfl⟩ := List.mem_map.mp hs
  obtain ⟨i, hi⟩ := List.mem_iff_getElem?.mp hx
  have hlt := h.inverse.lt (List.getElem?_zip_eq_some.mp hi).1
  rw [h.length_logicals] at hlt
  change (x.1 : ℤ) ≠ logical
  omega

/-- What is done to a section depends on that section only. -/
theorem WellFormed.update_congr (h : d.WellFormed) (hl : d.logicals[visual]? = some l)
    (hitem : d.sectionItems[visual]? = some item) {g : HeaderSection → HeaderSection}
    (hf : f (toSection d.hiddenSectionSize (l, item))
      = g (toSection d.hiddenSectionSize (l, item))) :
  HeaderSections.update l f d.sections = HeaderSections.update l g d.sections
  := by
  apply List.map_congr_left
  intro s hs
  obtain ⟨x, hx, rfl⟩ := List.mem_map.mp hs
  obtain ⟨i, hi⟩ := List.mem_iff_getElem?.mp hx
  split
  next heq =>
    have hsame : x.1 = l := Int.natCast_inj.mp heq
    have hplace := h.inverse.inj (hsame ▸ (List.getElem?_zip_eq_some.mp hi).1) hl
    rw [hplace, WellFormed.tagged_at hl hitem] at hi
    cases hi
    exact hf
  next => rfl

theorem WellFormed.update_same (h : d.WellFormed) (hl : d.logicals[visual]? = some l)
    (hitem : d.sectionItems[visual]? = some item)
    (hf : f (toSection d.hiddenSectionSize (l, item)) = toSection d.hiddenSectionSize (l, item)) :
  HeaderSections.update l f d.sections = d.sections
  := by
  rw [h.update_congr hl hitem (g := id) hf]
  apply (List.map_congr_left fun s _ => ?_).trans (List.map_id d.sections)
  exact ite_self _

/-! ### Resizing -/

/-- The size that a section is given. -/
def bounded (d : QHeaderView) (size : ℤ) : ℤ :=
  if 0 < size then qBound d.minimumSectionSize size d.maximumSectionSize else size

theorem resizeSection_hidden (h : d.WellFormed) (hl : l < d.sectionCount) {size : ℤ}
    (hsize : ¬ (size < 0 ∨ maxSizeSection < size))
    (hhidden : (d.hiddenSectionSize.lookup l).isSome) :
  d.resizeSection l size = .ok { d with
    hiddenSectionSize := d.hiddenSectionSize.insert l (d.bounded size) }
  := by
  rw [resizeSection, if_neg (by omega)]
  dsimp only
  rw [h.isSectionHidden_eq hl, ok_bind, if_pos hhidden, Int.toNat_natCast]
  rfl

theorem resizeSection_visible (h : d.WellFormed) (hl : d.logicals[visual]? = some l)
    (hitem : d.sectionItems[visual]? = some item) {size : ℤ}
    (hsize : ¬ (size < 0 ∨ maxSizeSection < size))
    (hhidden : d.hiddenSectionSize.lookup l = none) :
  d.resizeSection l size = .ok { d with
    sectionItems := d.sectionItems.set visual
      { item with size := BitVec.ofInt 20 (d.bounded size) } }
  := by
  have hlt := h.inverse.lt hl
  rw [h.length_logicals] at hlt
  obtain ⟨visual', item', hvisual, hl', -⟩ := h.visualIndex_eq hlt
  rw [h.inverse.inj hl' hl] at hvisual
  rw [resizeSection, if_neg (by omega)]
  dsimp only
  rw [h.isSectionHidden_eq hlt, ok_bind, hhidden, Option.isSome_none,
    if_neg Bool.false_ne_true, hvisual, ok_bind]
  dsimp only
  rw [headerSectionSize_eq hitem, headerSectionResizeMode_eq hitem, createSectionItems_eq hitem]
  change (if (item.size.toNat : ℤ) = d.bounded size then _ else _) = _
  split
  next hsame =>
    have heq : ({ item with size := BitVec.ofInt 20 (d.bounded size) } : SectionItem) = item := by
      rw [← hsame, BitVec.ofInt_natCast, BitVec.ofNat_toNat, BitVec.setWidth_eq]
    rw [heq, set_same hitem]
    rfl
  next => rfl

theorem resizeSection_ends (h : d.WellFormed) (logical size : ℤ) :
  ∃ d', d.resizeSection logical size = .ok d' ∧ d'.WellFormed ∧ d'.sizes = d.sizes
    ∧ d'.sections = HeaderSections.step d.sizes d.sections (.resizeSection logical size)
  := by
  rw [HeaderSections.step]
  by_cases hout : logical < 0 ∨ d.sectionCount ≤ logical
  · rw [h.update_outside hout, resizeSection, if_pos (by omega)]
    exact ⟨d, rfl, h, rfl, rfl⟩
  · by_cases hsize : size < 0 ∨ maxSizeSection < size
    · have hsame : HeaderSections.update logical (.resize d.sizes size) d.sections
          = d.sections := by
        apply (List.map_congr_left fun s _ => ?_).trans (List.map_id d.sections)
        rw [HeaderSection.resize, if_pos hsize, ite_self]
        rfl
      rw [hsame, resizeSection, if_pos (by omega)]
      exact ⟨d, rfl, h, rfl, rfl⟩
    · obtain ⟨l, rfl⟩ := Int.eq_ofNat_of_zero_le (by omega : 0 ≤ logical)
      have hl : l < d.sectionCount := by omega
      obtain ⟨visual, item, -, hlogical, hitem⟩ := h.visualIndex_eq hl
      have hflag := h.flags _ (List.mem_of_getElem? (WellFormed.tagged_at hlogical hitem))
      cases hhidden : d.hiddenSectionSize.lookup l with
      | some old =>
        rw [resizeSection_hidden h hl hsize (by rw [hhidden]; rfl)]
        have hdone := h.adjust hlogical hitem item
          (d.hiddenSectionSize.insert l (d.bounded size))
          (f := .resize d.sizes size) ?_ ?_ ?_
        · rw [set_same hitem] at hdone
          exact ⟨_, rfl, hdone.1, rfl, hdone.2⟩
        · exact fun k hk => AList.lookup_insert_ne hk
        · rw [hflag, AList.lookup_insert, hhidden]
          rfl
        · rw [HeaderSection.resize, if_neg hsize, toSection, toSection, hhidden,
            AList.lookup_insert]
          rfl
      | none =>
        rw [resizeSection_visible h hlogical hitem hsize hhidden]
        have hdone := h.adjust hlogical hitem
          { item with size := BitVec.ofInt 20 (d.bounded size) }
          d.hiddenSectionSize (f := .resize d.sizes size) (fun _ _ => rfl) hflag ?_
        · exact ⟨_, rfl, hdone.1, rfl, hdone.2⟩
        · rw [HeaderSection.resize, if_neg hsize, toSection, toSection, hhidden]
          rfl

/-! ### Hiding -/

theorem setSectionHidden_ends (h : d.WellFormed) (logical : ℤ) (hide : Bool) :
  ∃ d', d.setSectionHidden logical hide = .ok d' ∧ d'.WellFormed ∧ d'.sizes = d.sizes
    ∧ d'.sections = HeaderSections.step d.sizes d.sections (.setSectionHidden logical hide)
  := by
  rw [HeaderSections.step, setSectionHidden]
  by_cases hout : logical < 0 ∨ d.sectionCount ≤ logical
  · rw [h.update_outside hout, if_pos hout]
    exact ⟨d, rfl, h, rfl, rfl⟩
  · obtain ⟨l, rfl⟩ := Int.eq_ofNat_of_zero_le (by omega : 0 ≤ logical)
    have hl : l < d.sectionCount := by omega
    obtain ⟨visual, item, hvisual, hlogical, hitem⟩ := h.visualIndex_eq hl
    have hflag := h.flags _ (List.mem_of_getElem? (WellFormed.tagged_at hlogical hitem))
    dsimp only at hflag
    rw [if_neg hout, hvisual, ok_bind]
    dsimp only
    rw [isVisualIndexHidden_eq hitem, ok_bind, Int.toNat_natCast, headerSectionSize_eq hitem]
    cases hhidden : d.hiddenSectionSize.lookup l with
    | none =>
      rw [hhidden, Option.isSome_none] at hflag
      cases hide with
      | false =>
        rw [if_pos hflag.symm, h.update_same hlogical hitem]
        · exact ⟨d, rfl, h, rfl, rfl⟩
        · rw [toSection, hhidden]
          rfl
      | true =>
        rw [if_neg (by rw [hflag]; decide), if_pos rfl,
          resizeSection_visible h hlogical hitem (by decide) hhidden, ok_bind]
        dsimp only
        have hvisual' := (List.getElem?_eq_some_iff.mp hitem).1
        rw [setVisualIndexHidden_eq (List.getElem?_set_self hvisual'), List.set_set]
        have hdone := h.adjust hlogical hitem
          { item with size := 0, isHidden := true }
          (d.hiddenSectionSize.insert l item.size.toNat)
          (f := .setHidden d.sizes true) (fun k hk => AList.lookup_insert_ne hk) ?_ ?_
        · exact ⟨_, rfl, hdone.1, rfl, hdone.2⟩
        · rw [AList.lookup_insert]
          rfl
        · rw [toSection, toSection, hhidden, AList.lookup_insert]
          rfl
    | some size =>
      rw [hhidden, Option.isSome_some] at hflag
      cases hide with
      | true =>
        rw [if_pos hflag.symm, h.update_same hlogical hitem]
        · exact ⟨d, rfl, h, rfl, rfl⟩
        · rw [toSection, hhidden]
          rfl
      | false =>
        rw [if_neg (by rw [hflag]; decide), if_neg Bool.false_ne_true,
          setVisualIndexHidden_eq (d := { d with
            hiddenSectionSize := d.hiddenSectionSize.erase l }) hitem, ok_bind,
          Option.getD_some]
        have hdone := h.adjust hlogical hitem
          { item with isHidden := false } (d.hiddenSectionSize.erase l)
          (f := fun s => { s with hidden := none })
          (fun k hk => AList.lookup_erase_ne hk) ?_ ?_
        · obtain ⟨d', heq, h', hsizes, hsections⟩ := resizeSection_ends hdone.1 l size
          refine ⟨d', heq, h', hsizes, ?_⟩
          rw [hsections, hdone.2, HeaderSections.step, HeaderSections.update_update]
          · apply h.update_congr hlogical hitem
            rw [toSection, hhidden]
            rfl
          · exact fun _ => rfl
        · rw [AList.lookup_erase]
          rfl
        · rw [toSection, toSection, AList.lookup_erase]

end QHeaderView
