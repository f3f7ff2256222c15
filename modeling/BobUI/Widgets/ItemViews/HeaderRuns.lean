import BobUI.Widgets.ItemViews.HeaderChanges
import BobUI.Widgets.ItemViews.HeaderRemoval

/-!
# Header sections keep their identity

In every run the stores of a header agree, and the sections that they describe are those of the
abstract run: sections change places, one section changes, or the others are renumbered.
-/

namespace QHeaderView

open IndexLists

variable {d : QHeaderView}

theorem step_ends (h : d.WellFormed) (action : Action) :
  ∃ d', d.step action = .ok d' ∧ d'.WellFormed ∧ d'.sizes = d.sizes
    ∧ d'.sections = HeaderSections.step d.sizes d.sections action
  := by
  cases action with
  | moveSection source target => exact moveSection_ends h source target
  | swapSections first second => exact swapSections_ends h first second
  | setSectionHidden logical hide => exact setSectionHidden_ends h logical hide
  | resizeSection logical size => exact resizeSection_ends h logical size
  | sectionsInserted isRoot modelSectionCount first last =>
    rw [step]
    split
    next hrange => exact sectionsInserted_ends h isRoot hrange.1 hrange.2
    next hrange =>
      refine ⟨d, rfl, h, rfl, ?_⟩
      rw [HeaderSections.step, h.length_sections, if_neg (fun h => hrange h.2.2)]
  | sectionsRemoved isRoot first last =>
    rw [step]
    split
    next hrange => exact sectionsRemoved_ends h isRoot hrange
    next hrange =>
      refine ⟨d, rfl, h, rfl, ?_⟩
      rw [HeaderSections.step, if_neg (fun h => hrange h.2.2.1)]

theorem run_ends (h : d.WellFormed) (actions : List Action) :
  ∃ d', d.run actions = .ok d' ∧ d'.WellFormed
    ∧ d'.sections = actions.foldl (HeaderSections.step d.sizes) d.sections
  := by
  induction actions generalizing d with
  | nil => exact ⟨d, rfl, h, rfl⟩
  | cons action actions ih =>
    obtain ⟨d', hstep, h', hsizes, hsections⟩ := step_ends h action
    obtain ⟨d'', hrun, h'', hsections'⟩ := ih h'
    refine ⟨d'', ?_, h'', ?_⟩
    · rw [run, List.foldlM_cons, hstep, ok_bind]
      exact hrun
    · rw [hsections', hsizes, hsections, List.foldl_cons]

section Flexible

variable (items : List (BitVec 20 × ResizeMode)) (sortIndicatorSection defaultSectionSize : ℤ)
  (globalResizeMode : ResizeMode) (minimumSectionSize maximumSectionSize : ℤ) (noClear : Bool)

theorem tagged_flexible :
  (flexible items sortIndicatorSection defaultSectionSize globalResizeMode minimumSectionSize
      maximumSectionSize noClear).tagged
    = items.mapIdx fun i s => (i, ⟨s.1, false, s.2⟩)
  := by
  apply List.ext_getElem
  · simp [tagged, logicals, flexible, sectionCount]
  · intro i _ _
    simp [tagged, logicals, flexible, sectionCount]

theorem flexible_wellFormed :
  (flexible items sortIndicatorSection defaultSectionSize globalResizeMode minimumSectionSize
    maximumSectionSize noClear).WellFormed
  := by
  refine ⟨.inl ⟨rfl, rfl⟩, ?_, ?_⟩
  · rw [tagged_flexible]
    intro x hx
    obtain ⟨i, hi, rfl⟩ := List.mem_mapIdx.mp hx
    rw [flexible, AList.lookup_empty]
    rfl
  · intro l hl
    rw [flexible, AList.lookup_empty] at hl
    cases hl

/-- The sections of a header before it is changed: none is moved or hidden. -/
theorem sections_flexible :
  (flexible items sortIndicatorSection defaultSectionSize globalResizeMode minimumSectionSize
      maximumSectionSize noClear).sections
    = items.mapIdx fun i s => ⟨i, s.1, s.2, none⟩
  := by
  rw [sections, tagged_flexible]
  apply List.ext_getElem
  · simp
  · intro i _ _
    simp [toSection, flexible]

/-- In every run, the lists of indexes are empty or inverse permutations, the hidden sections are
those with a size in the hash, and the sections are those of the abstract run. -/
theorem run_sections (actions : List Action) :
  ∃ d, (flexible items sortIndicatorSection defaultSectionSize globalResizeMode
      minimumSectionSize maximumSectionSize noClear).run actions = .ok d
    ∧ (d.visualIndices = [] ∧ d.logicalIndices = []
      ∨ d.visualIndices.Perm (List.range d.sectionCount)
        ∧ d.logicalIndices.Perm (List.range d.sectionCount)
        ∧ ∀ l v : ℕ, d.visualIndices[l]? = some v ↔ d.logicalIndices[v]? = some l)
    ∧ (∀ l : ℕ, l ∈ d.hiddenSectionSize
      ↔ l < d.sectionCount ∧ d.isSectionHidden l = .ok true)
    ∧ d.sections
      = actions.foldl
        (HeaderSections.step
          ⟨defaultSectionSize, globalResizeMode, minimumSectionSize, maximumSectionSize⟩)
        (items.mapIdx fun i s => ⟨i, s.1, s.2, none⟩)
  := by
  obtain ⟨d, h_run, h, h_sections⟩ := run_ends (flexible_wellFormed items sortIndicatorSection
    defaultSectionSize globalResizeMode minimumSectionSize maximumSectionSize noClear) actions
  refine ⟨d, h_run, ?_, ?_, ?_⟩
  · rcases h.mapping with h_empty | ⟨h_inverse, h_length⟩
    · exact .inl h_empty
    · have h_perm := h_inverse.perm
      have h_perm' := h_inverse.symm.perm
      rw [h_inverse.length_eq, h_length] at h_perm'
      rw [h_length] at h_perm
      exact .inr ⟨h_perm', h_perm, fun l v => (h_inverse.iff v l).symm⟩
  · intro l
    rw [← AList.lookup_isSome]
    constructor
    · intro h_l
      have h_lt := h.keys l h_l
      exact ⟨h_lt, by rw [h.isSectionHidden_eq h_lt, h_l]⟩
    · rintro ⟨h_lt, h_hidden⟩
      rw [h.isSectionHidden_eq h_lt] at h_hidden
      exact Except.ok.inj h_hidden
  · rw [h_sections, sections_flexible]
    rfl

end Flexible

end QHeaderView
