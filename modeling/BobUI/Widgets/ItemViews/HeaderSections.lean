import BobUI.Library.IndexLists
import BobUI.Library.Outcome
import BobUI.Widgets.ItemViews.HeaderView
import Mathlib.Data.Nat.SuccPred

/-!
# The sections as a list

What the stores of a header are for: a list of sections in visual order, each with its logical
index, its size, its mode and, where it is hidden, the size it is to have when it is shown.
Moving and swapping change the places of sections, resizing and hiding change one section, and
the insertion and removal of sections change the logical indexes of the others.
-/

/-- A section of a header. -/
structure HeaderSection where
  logical : ℕ
  size : BitVec 20
  resizeMode : ResizeMode
  hidden : Option ℤ
  deriving DecidableEq, Repr

/-- The sizes that sections may have, and the one they have first. -/
structure HeaderSizes where
  defaultSize : ℤ
  defaultMode : ResizeMode
  least : ℤ
  greatest : ℤ

namespace HeaderSection

/-- A section is given a size; a hidden one is to have it later. -/
def resize (sizes : HeaderSizes) (size : ℤ) (s : HeaderSection) : HeaderSection :=
  if size < 0 ∨ QHeaderView.maxSizeSection < size then s
  else
    let size := if 0 < size then QHeaderView.qBound sizes.least size sizes.greatest else size
    match s.hidden with
    | some _ => { s with hidden := some size }
    | none => { s with size := BitVec.ofInt 20 size }

/-- A section is hidden, or shown with the size it is to have. -/
def setHidden (sizes : HeaderSizes) (hide : Bool) (s : HeaderSection) : HeaderSection :=
  match s.hidden, hide with
  | none, true => { s with size := 0, hidden := some s.size.toNat }
  | some size, false => resize sizes size { s with hidden := none }
  | _, _ => s

end HeaderSection

namespace HeaderSections

/-- The section with a logical index changes. -/
def update (logical : ℤ) (f : HeaderSection → HeaderSection) (sections : List HeaderSection) :
    List HeaderSection :=
  sections.map fun s => if (s.logical : ℤ) = logical then f s else s

/-- New sections are inserted, in the order of their logical indexes. -/
def inserted (sizes : HeaderSizes) (first count : ℕ) (sections : List HeaderSection) :
    List HeaderSection :=
  let others := sections.map fun s =>
    { s with logical := if first ≤ s.logical then s.logical + count else s.logical }
  let new := (List.range' first count).map fun i =>
    ⟨i, BitVec.ofInt 20 sizes.defaultSize, sizes.defaultMode, none⟩
  others.take first ++ new ++ others.drop first

/-- The sections of a range of logical indexes are removed. -/
def removed (first last : ℕ) (sections : List HeaderSection) : List HeaderSection :=
  (sections.filter fun s => ¬ (first ≤ s.logical ∧ s.logical ≤ last)).map fun s =>
    { s with logical := if last < s.logical then s.logical - (last + 1 - first) else s.logical }

/-- What an action does to the sections. -/
def step (sizes : HeaderSizes) (sections : List HeaderSection) :
    QHeaderView.Action → List HeaderSection
  | .moveSection source target =>
    if 0 ≤ source ∧ source < sections.length ∧ 0 ≤ target ∧ target < sections.length then
      IndexLists.moved sections source.toNat target.toNat
    else sections
  | .swapSections first second =>
    if 0 ≤ first ∧ first < sections.length ∧ 0 ≤ second ∧ second < sections.length then
      IndexLists.swapped sections first.toNat second.toNat
    else sections
  | .setSectionHidden logical hide => update logical (.setHidden sizes hide) sections
  | .resizeSection logical size => update logical (.resize sizes size) sections
  | .sectionsInserted isRoot modelSectionCount first last =>
    if isRoot ∧ modelSectionCount ≠ sections.length ∧ first ≤ last ∧ first ≤ sections.length then
      inserted sizes first (last + 1 - first) sections
    else sections
  | .sectionsRemoved isRoot first last =>
    if isRoot ∧ 0 ≤ first ∧ first ≤ last ∧ last < sections.length then
      removed first.toNat last.toNat sections
    else sections

end HeaderSections

namespace QHeaderView

open IndexLists

/-! ### The invariant -/

/-- The logical indexes by visual index, also where they are not stored. -/
def logicals (d : QHeaderView) : List ℕ :=
  if d.logicalIndices.isEmpty then List.range d.sectionCount else d.logicalIndices

/-- The visual indexes by logical index, also where they are not stored. -/
def visuals (d : QHeaderView) : List ℕ :=
  if d.visualIndices.isEmpty then List.range d.sectionCount else d.visualIndices

/-- The sections with their logical indexes, in visual order. -/
def tagged (d : QHeaderView) : List (ℕ × SectionItem) :=
  d.logicals.zip d.sectionItems

/-- What the stores have about a section. -/
def toSection (sizes : SectionSizes) (x : ℕ × SectionItem) : HeaderSection :=
  ⟨x.1, x.2.size, x.2.resizeMode, sizes.lookup x.1⟩

/-- The sections of a header. -/
def sections (d : QHeaderView) : List HeaderSection :=
  d.tagged.map (toSection d.hiddenSectionSize)

def sizes (d : QHeaderView) : HeaderSizes :=
  ⟨d.defaultSectionSize, d.globalResizeMode, d.minimumSectionSize, d.maximumSectionSize⟩

/-- The stores of a header agree. -/
structure WellFormed (d : QHeaderView) : Prop where
  mapping : d.visualIndices = [] ∧ d.logicalIndices = []
    ∨ Inverse d.logicalIndices d.visualIndices ∧ d.logicalIndices.length = d.sectionCount
  flags : ∀ x ∈ d.tagged, x.2.isHidden = (d.hiddenSectionSize.lookup x.1).isSome
  keys : ∀ l, (d.hiddenSectionSize.lookup l).isSome → l < d.sectionCount

section WellFormed

variable {d : QHeaderView}

theorem isEmpty_eq_of_length {l : List ℕ} {n : ℕ} (h : l.length = n) :
  (if l.isEmpty then List.range n else l) = l
  := by
  cases l with
  | nil =>
    rw [← h]
    rfl
  | cons => rfl

theorem WellFormed.inverse (h : d.WellFormed) :
  Inverse d.logicals d.visuals
  := by
  rcases h.mapping with ⟨hvisual, hlogical⟩ | ⟨hinverse, hlength⟩
  · rw [logicals, visuals, hvisual, hlogical]
    exact Inverse.range _
  · rw [logicals, visuals, isEmpty_eq_of_length hlength,
      isEmpty_eq_of_length (hinverse.length_eq.trans hlength)]
    exact hinverse

theorem WellFormed.length_logicals (h : d.WellFormed) :
  d.logicals.length = d.sectionCount
  := by
  rcases h.mapping with ⟨-, hlogical⟩ | ⟨-, hlength⟩
  · rw [logicals, hlogical]
    exact List.length_range
  · rw [logicals, isEmpty_eq_of_length hlength, hlength]

theorem WellFormed.logical_at (h : d.WellFormed) {visual : ℕ} (hvisual : visual < d.sectionCount) :
  ∃ l, d.logicals[visual]? = some l
  := by
  rw [← h.length_logicals] at hvisual
  exact ⟨_, List.getElem?_eq_getElem hvisual⟩

theorem WellFormed.length_sections (h : d.WellFormed) :
  d.sections.length = d.sectionCount
  := by
  rw [sections, List.length_map, tagged, List.length_zip, h.length_logicals]
  exact Nat.min_self _

theorem WellFormed.initializeIndexMapping_eq (h : d.WellFormed) :
  d.initializeIndexMapping = { d with visualIndices := d.visuals, logicalIndices := d.logicals }
  := by
  rw [initializeIndexMapping]
  rcases h.mapping with ⟨hvisual, hlogical⟩ | ⟨hinverse, hlength⟩
  · rw [logicals, visuals, hvisual, hlogical]
    split
    next => rfl
    next hsame =>
      rw [not_or, ne_eq, not_not] at hsame
      rw [← hsame.1]
      cases d
      cases hvisual
      cases hlogical
      rfl
  · have hvisual := hinverse.length_eq.trans hlength
    rw [if_neg (by omega), logicals, visuals, isEmpty_eq_of_length hlength,
      isEmpty_eq_of_length hvisual]

theorem WellFormed.initializeIndexMapping_items (h : d.WellFormed) {items : List SectionItem}
    (hlength : items.length = d.sectionItems.length) :
  initializeIndexMapping { d with sectionItems := items } = { d with
    visualIndices := d.visuals, logicalIndices := d.logicals, sectionItems := items }
  := by
  have heq := h.initializeIndexMapping_eq
  unfold initializeIndexMapping sectionCount at heq ⊢
  simp only [hlength]
  split
  next hif =>
    rw [if_pos hif] at heq
    exact congrArg (fun e : QHeaderView => { e with sectionItems := items }) heq
  next hif =>
    rw [if_neg hif] at heq
    exact congrArg (fun e : QHeaderView => { e with sectionItems := items }) heq

/-- The indexes and the sections change places. -/
theorem WellFormed.reindex (h : d.WellFormed) {σ : ℕ → ℕ} {l v : List ℕ}
    {items : List SectionItem} (hinverse : Inverse l v) (hl : Replaced σ d.logicals l)
    (hitems : Replaced σ d.sectionItems items) :
  WellFormed { d with visualIndices := v, logicalIndices := l, sectionItems := items }
    ∧ Replaced σ d.sections
      (sections { d with visualIndices := v, logicalIndices := l, sectionItems := items })
  := by
  have hlength : l.length = items.length := by
    rw [hl.length_eq, hitems.length_eq, h.length_logicals, sectionCount]
  have hlogicals : logicals { d with
      visualIndices := v, logicalIndices := l, sectionItems := items } = l :=
    isEmpty_eq_of_length hlength
  have htagged : Replaced σ d.tagged (l.zip items) := hl.zip hitems
  constructor
  · refine ⟨.inr ⟨hinverse, hlength⟩, ?_, ?_⟩
    · rw [tagged, hlogicals]
      intro x hx
      obtain ⟨i, hi⟩ := List.mem_iff_getElem?.mp hx
      rw [htagged.at_eq] at hi
      exact h.flags x (List.mem_of_getElem? hi)
    · intro k hk
      exact Nat.lt_of_lt_of_eq (h.keys k hk) hitems.length_eq.symm
  · rw [sections, sections, tagged, tagged, hlogicals]
    exact htagged.map _

end WellFormed

/-! ### Moving -/

theorem fetch_eq {α : Type} {l : List α} {i : ℕ} {a : α} (h : l[i]? = some a) :
  fetch l i = .ok a
  := by
  rw [fetch, h]

theorem store_eq {α : Type} {l : List α} {i : ℕ} (h : i < l.length) (a : α) :
  store l i a = .ok (l.set i a)
  := if_pos h

theorem set_same {α : Type} {l : List α} {i : ℕ} {a : α} (h : l[i]? = some a) :
  l.set i a = l
  := by
  obtain ⟨hi, rfl⟩ := List.getElem?_eq_some_iff.mp h
  exact List.set_getElem_self hi

/-- The place of a section after it has been shifted once more. -/
theorem movePlace_succ {source visual : ℕ} (h : source ≤ visual) (i : ℕ) :
  movePlace source visual (swapPlace visual (visual + 1) i) = movePlace source (visual + 1) i
  := by
  unfold movePlace swapPlace
  split_ifs <;> omega

theorem movePlace_pred {source visual : ℕ} (h : visual + 1 ≤ source) (i : ℕ) :
  movePlace source (visual + 1) (swapPlace (visual + 1) visual i) = movePlace source visual i
  := by
  unfold movePlace swapPlace
  split_ifs <;> omega

/-- A turn of the loops of `moveSection`: with the section that is moved in the free place, the
indexes stay inverse, and two neighbours swap. -/
theorem shift_inverse {l v : List ℕ} {logical visual next other : ℕ}
    (h : Inverse (l.set visual logical) (v.set logical visual)) (hvisual : visual < l.length)
    (hne : visual ≠ next) (hother : l[next]? = some other) :
  Inverse ((l.set visual other).set next logical) ((v.set other visual).set logical next)
    ∧ Replaced (swapPlace visual next) (l.set visual logical)
      ((l.set visual other).set next logical)
  := by
  have ha : (l.set visual logical)[visual]? = some logical := List.getElem?_set_self hvisual
  have hb : (l.set visual logical)[next]? = some other := by
    rw [List.getElem?_set_ne hne, hother]
  have hswap := h.swap ha hb
  have hreplaced := replaced_set ha hb
  rw [List.set_set] at hswap hreplaced
  refine ⟨?_, hreplaced⟩
  have hv : ((v.set logical visual).set other visual).set logical next
      = (v.set other visual).set logical next := by
    by_cases heq : other = logical
    · rw [heq, List.set_set]
    · rw [List.set_comm visual visual (Ne.symm heq), List.set_set]
  rwa [hv] at hswap

/-- The loops of `moveSection`, where the place of the section that is moved goes from one to the
next. -/
theorem shiftSections_ends (next : ℕ → ℕ) {source logical : ℕ} {l₀ : List ℕ}
    (turns visual : ℕ) {l v : List ℕ} (h : Inverse (l.set visual logical) (v.set logical visual))
    (hlength : l.length = l₀.length) (hv : v.length = l₀.length)
    (hreplaced : Replaced (movePlace source visual) l₀ (l.set visual logical))
    (hrange : ∀ k < turns, next^[k] visual < l₀.length
      ∧ next^[k + 1] visual < l₀.length ∧ next^[k] visual ≠ next^[k + 1] visual
      ∧ ∀ i, movePlace source (next^[k] visual)
          (swapPlace (next^[k] visual) (next^[k + 1] visual) i)
        = movePlace source (next^[k + 1] visual) i) :
  ∃ v' l', shiftSections next turns visual (v, l) = .ok (v', l')
    ∧ v'.length = l₀.length ∧ l'.length = l₀.length
    ∧ Inverse (l'.set (next^[turns] visual) logical) (v'.set logical (next^[turns] visual))
    ∧ Replaced (movePlace source (next^[turns] visual)) l₀
      (l'.set (next^[turns] visual) logical)
  := by
  induction turns generalizing visual l v with
  | zero => exact ⟨v, l, rfl, hv, hlength, h, hreplaced⟩
  | succ turns ih =>
    obtain ⟨hvisual, hnext, hne, hplace⟩ := hrange 0 (Nat.succ_pos turns)
    simp only [Function.iterate_zero, id_eq, Function.iterate_succ, Function.comp_apply]
      at hvisual hnext hne hplace
    have hother := List.getElem?_eq_getElem (hlength ▸ hnext)
    set other := l[next visual] with hdef
    obtain ⟨hinverse, hswap⟩ := shift_inverse h (hlength ▸ hvisual) hne hother
    have hlt : other < v.length := by
      have hmem := h.symm.length_eq
      have hat := h.at_eq (next visual) other
      rw [List.getElem?_set_ne hne, hother] at hat
      obtain ⟨hlt, -⟩ := List.getElem?_eq_some_iff.mp (hat rfl)
      rwa [List.length_set] at hlt
    rw [shiftSections, fetch_eq hother, ok_bind, store_eq hlt, ok_bind,
      store_eq (hlength ▸ hvisual), ok_bind]
    apply ih (next visual) hinverse
    · rw [List.length_set, hlength]
    · rw [List.length_set, hv]
    · have htrans := hreplaced.trans hswap
      rwa [funext hplace] at htrans
    · intro k hk
      have hlater := hrange (k + 1) (Nat.succ_lt_succ hk)
      simpa only [Function.iterate_succ, Function.comp_apply] using hlater

theorem qMoveRange_replaced {α : Type} {l : List α} {source target : ℕ}
    (hsource : source < l.length) (htarget : target < l.length) (hne : source ≠ target) :
  ∃ l', qMoveRange l source (source + 1) target = .ok l'
    ∧ Replaced (movePlace source target) l l'
  := by
  unfold qMoveRange
  rw [if_neg (by omega)]
  dsimp only
  by_cases hforward : source < target
  · simp only [if_pos hforward, Nat.min_eq_left (Nat.le_of_lt hforward)]
    rw [if_neg (by omega)]
    refine ⟨_, rfl, ?_, fun i => ?_⟩
    · simp only [List.length_append, List.length_drop, List.length_take]
      omega
    · simp only [List.getElem?_append, List.getElem?_drop, List.getElem?_take, List.length_append,
        List.length_drop, List.length_take]
      unfold movePlace
      split_ifs <;> first | omega | (congr 1 <;> omega)
  · simp only [if_neg hforward, Nat.min_eq_right (Nat.le_of_not_lt hforward)]
    rw [if_neg (by omega)]
    refine ⟨_, rfl, ?_, fun i => ?_⟩
    · simp only [List.length_append, List.length_drop, List.length_take]
      omega
    · simp only [List.getElem?_append, List.getElem?_drop, List.getElem?_take, List.length_append,
        List.length_drop, List.length_take]
      unfold movePlace
      split_ifs <;> first | omega | (congr 1 <;> omega)

/-- The loop of `moveSection` that is chosen, up to the last assignments. -/
theorem shift_ends {l v : List ℕ} (h : Inverse l v) {source target logical : ℕ}
    (htarget : target < l.length) (hlogical : l[source]? = some logical) :
  ∃ v' l', (if source < target then shiftSections (· + 1) (target - source) source (v, l)
      else shiftSections (· - 1) (source - target) source (v, l)) = .ok (v', l')
    ∧ v'.length = l.length ∧ l'.length = l.length
    ∧ Inverse (l'.set target logical) (v'.set logical target)
    ∧ Replaced (movePlace source target) l (l'.set target logical)
  := by
  obtain ⟨hsource, -⟩ := List.getElem?_eq_some_iff.mp hlogical
  have hl : l.set source logical = l := set_same hlogical
  have hv : v.set logical source = v := set_same (h.at_eq source logical hlogical)
  have hstart : Inverse (l.set source logical) (v.set logical source) := by
    rwa [hl, hv]
  have hplace : Replaced (movePlace source source) l (l.set source logical) := by
    rw [hl]
    apply (Replaced.refl l).congr
    · intro i _
      unfold movePlace
      split_ifs <;> omega
    · intro i hi
      unfold movePlace
      split_ifs <;> omega
  split
  next hlt =>
    have hnext : (· + 1)^[target - source] source = target := by
      have hiterate : (· + 1)^[target - source] source = source + (target - source) :=
        Nat.succ_iterate source _
      omega
    obtain ⟨v', l', hrun⟩ := shiftSections_ends (· + 1) (target - source) source hstart rfl
      h.length_eq hplace (by
        intro k hk
        have hiterate : ∀ k, (· + 1)^[k] source = source + k := Nat.succ_iterate source
        simp only [hiterate]
        refine ⟨by omega, by omega, by omega, fun i => ?_⟩
        exact movePlace_succ (Nat.le_add_right source k) i)
    rw [hnext] at hrun
    exact ⟨v', l', hrun⟩
  next hge =>
    have hnext : (· - 1)^[source - target] source = target := by
      have hiterate : (· - 1)^[source - target] source = source - (source - target) :=
        Nat.pred_iterate source _
      omega
    obtain ⟨v', l', hrun⟩ := shiftSections_ends (· - 1) (source - target) source hstart rfl
      h.length_eq hplace (by
        intro k hk
        have hiterate : ∀ k, (· - 1)^[k] source = source - k := Nat.pred_iterate source
        simp only [hiterate]
        refine ⟨by omega, by omega, by omega, fun i => ?_⟩
        have hpred := @movePlace_pred source (source - (k + 1)) (by omega) i
        rwa [show source - (k + 1) + 1 = source - k by omega] at hpred)
    rw [hnext] at hrun
    exact ⟨v', l', hrun⟩

theorem moveSection_ends {d : QHeaderView} (h : d.WellFormed) (source target : ℤ) :
  ∃ d', d.moveSection source target = .ok d' ∧ d'.WellFormed ∧ d'.sizes = d.sizes
    ∧ d'.sections = HeaderSections.step d.sizes d.sections (.moveSection source target)
  := by
  rw [moveSection, HeaderSections.step, h.length_sections]
  by_cases hrange : source < 0 ∨ d.sectionCount ≤ source ∨ target < 0 ∨ d.sectionCount ≤ target
  · rw [if_pos hrange, if_neg (by omega)]
    exact ⟨d, rfl, h, rfl, rfl⟩
  · rw [if_neg hrange]
    obtain ⟨source, rfl⟩ := Int.eq_ofNat_of_zero_le (by omega : 0 ≤ source)
    obtain ⟨target, rfl⟩ := Int.eq_ofNat_of_zero_le (by omega : 0 ≤ target)
    rw [Int.toNat_natCast, Int.toNat_natCast]
    have hsource : source < d.sections.length := by
      rw [h.length_sections]
      omega
    have htarget : target < d.sections.length := by
      rw [h.length_sections]
      omega
    have hmoved := replaced_moved hsource htarget
    by_cases heq : source = target
    · rw [if_pos (congrArg _ heq), if_pos (by omega)]
      refine ⟨d, rfl, h, rfl, ?_⟩
      rw [← heq] at hmoved ⊢
      apply ((Replaced.refl d.sections).congr ?_ ?_).unique hmoved
      · intro i _
        unfold movePlace
        split_ifs <;> omega
      · intro i hi
        unfold movePlace
        split_ifs <;> omega
    · rw [h.length_sections] at hsource htarget
      rw [if_neg (mt Int.natCast_inj.mp heq), if_pos (by omega),
        h.initializeIndexMapping_eq]
      obtain ⟨logical, hlogical⟩ := h.logical_at hsource
      obtain ⟨v', l', hrun, hv, hl, hinverse, hreplaced⟩ :=
        shift_ends h.inverse (h.length_logicals.symm ▸ htarget) hlogical
      obtain ⟨items, hitems, hreplaced'⟩ := qMoveRange_replaced hsource htarget heq
      have hbound := h.inverse.lt hlogical
      have hdone := h.reindex hinverse hreplaced hreplaced'
      dsimp only
      rw [fetch_eq hlogical, ok_bind]
      have hrest : (do
          let visualIndices ← store v' logical target
          let logicalIndices ← store l' target logical
          let items ← qMoveRange d.sectionItems source (source + 1) target
          pure { d with
            visualIndices := visualIndices, logicalIndices := logicalIndices,
            sectionItems := items } : Except QHeaderViewFault QHeaderView)
        = .ok { d with
            visualIndices := v'.set logical target,
            logicalIndices := l'.set target logical, sectionItems := items } := by
        rw [store_eq (hv ▸ hbound), ok_bind,
          store_eq (hl ▸ h.length_logicals.symm ▸ htarget), ok_bind, hitems, ok_bind]
        rfl
      have hforward : ((target : ℤ) - source).toNat = target - source := by omega
      have hbackward : ((source : ℤ) - target).toNat = source - target := by omega
      rw [hforward, hbackward]
      refine ⟨_, ?_, hdone.1, rfl, hdone.2.unique hmoved⟩
      by_cases hlt : source < target
      · rw [if_pos hlt] at hrun
        rw [if_pos (Int.ofNat_lt.mpr hlt), hrun, ok_bind]
        exact hrest
      · rw [if_neg hlt] at hrun
        rw [if_neg (mt Int.ofNat_lt.mp hlt), hrun, ok_bind]
        exact hrest

theorem WellFormed.logicalIndex_eq {d : QHeaderView} (h : d.WellFormed) {visual l : ℕ}
    (hl : d.logicals[visual]? = some l) :
  d.logicalIndex visual = .ok l
  := by
  rw [logicalIndex]
  rcases h.mapping with ⟨-, hlogical⟩ | ⟨-, hlength⟩
  · rw [logicals, hlogical] at hl
    obtain ⟨hvisual, heq⟩ := List.getElem?_eq_some_iff.mp hl
    simp only [List.isEmpty_nil, if_true, List.getElem_range] at heq
    rw [hlogical, heq]
    rfl
  · rw [logicals, isEmpty_eq_of_length hlength] at hl
    cases hindices : d.logicalIndices with
    | nil =>
      rw [hindices] at hl
      cases hl
    | cons => exact fetch_eq (hindices ▸ hl)

theorem createSectionItems_eq {d : QHeaderView} {visual : ℕ} {item : SectionItem}
    (h : d.sectionItems[visual]? = some item) (size : ℤ) (mode : ResizeMode) :
  d.createSectionItems visual visual size mode = { d with
    sectionItems := d.sectionItems.set visual
      { item with size := BitVec.ofInt 20 size, resizeMode := mode } }
  := by
  obtain ⟨hvisual, hitem⟩ := List.getElem?_eq_some_iff.mp h
  rw [createSectionItems, Nat.sub_eq_zero_of_le hvisual, List.replicate_zero, List.append_nil]
  congr 1
  apply List.ext_getElem?
  intro i
  rw [List.getElem?_mapIdx, List.getElem?_set]
  by_cases hi : visual = i
  · rw [if_pos hi, if_pos (hi ▸ hvisual), ← hi, h, Option.map_some,
      if_pos ⟨Nat.le_refl _, Nat.le_refl _⟩]
  · rw [if_neg hi]
    cases d.sectionItems[i]? with
    | none => rfl
    | some other => rw [Option.map_some, if_neg (by omega)]

theorem headerSectionSize_eq {d : QHeaderView} {visual : ℕ} {item : SectionItem}
    (h : d.sectionItems[visual]? = some item) :
  d.headerSectionSize visual = item.size.toNat
  := by
  rw [headerSectionSize, h]

theorem headerSectionResizeMode_eq {d : QHeaderView} {visual : ℕ} {item : SectionItem}
    (h : d.sectionItems[visual]? = some item) :
  d.headerSectionResizeMode visual = item.resizeMode
  := by
  rw [headerSectionResizeMode, h]

theorem isVisualIndexHidden_eq {d : QHeaderView} {visual : ℕ} {item : SectionItem}
    (h : d.sectionItems[visual]? = some item) :
  d.isVisualIndexHidden visual = .ok item.isHidden
  := by
  rw [isVisualIndexHidden, fetch_eq h]
  rfl

theorem setVisualIndexHidden_eq {d : QHeaderView} {visual : ℕ} {item : SectionItem}
    (h : d.sectionItems[visual]? = some item) (hidden : Bool) :
  d.setVisualIndexHidden visual hidden = .ok { d with
    sectionItems := d.sectionItems.set visual { item with isHidden := hidden } }
  := by
  obtain ⟨hvisual, -⟩ := List.getElem?_eq_some_iff.mp h
  rw [setVisualIndexHidden, fetch_eq h, ok_bind, store_eq hvisual]
  rfl

theorem swapPlace_comm (i j : ℕ) :
  swapPlace i j = swapPlace j i
  := by
  funext k
  unfold swapPlace
  split_ifs <;> omega

/-- The section of a visual index as the stores have it. -/
theorem WellFormed.tagged_at {d : QHeaderView} {visual l : ℕ} {item : SectionItem}
    (hl : d.logicals[visual]? = some l) (hitem : d.sectionItems[visual]? = some item) :
  d.tagged[visual]? = some (l, item)
  := List.getElem?_zip_eq_some.mpr ⟨hl, hitem⟩

theorem swapSections_ends {d : QHeaderView} (h : d.WellFormed) (first second : ℤ) :
  ∃ d', d.swapSections first second = .ok d' ∧ d'.WellFormed ∧ d'.sizes = d.sizes
    ∧ d'.sections = HeaderSections.step d.sizes d.sections (.swapSections first second)
  := by
  rw [swapSections, HeaderSections.step, h.length_sections]
  by_cases hrange : first < 0 ∨ d.sectionCount ≤ first ∨ second < 0 ∨ d.sectionCount ≤ second
  · rw [if_pos hrange, ite_self, if_neg (by omega)]
    exact ⟨d, rfl, h, rfl, rfl⟩
  · rw [if_neg hrange]
    obtain ⟨i, rfl⟩ := Int.eq_ofNat_of_zero_le (by omega : 0 ≤ first)
    obtain ⟨j, rfl⟩ := Int.eq_ofNat_of_zero_le (by omega : 0 ≤ second)
    rw [Int.toNat_natCast, Int.toNat_natCast]
    have hi : i < d.sectionCount := by omega
    have hj : j < d.sectionCount := by omega
    have hswapped := replaced_swapped (h.length_sections.symm ▸ hi)
      (h.length_sections.symm ▸ hj)
    by_cases heq : i = j
    · rw [if_pos (congrArg _ heq), if_pos (by omega)]
      refine ⟨d, rfl, h, rfl, ?_⟩
      rw [← heq] at hswapped ⊢
      apply ((Replaced.refl d.sections).congr ?_ ?_).unique hswapped
      · intro k _
        unfold swapPlace
        split_ifs <;> omega
      · intro k hk
        rw [h.length_sections] at hk ⊢
        unfold swapPlace
        split_ifs <;> omega
    · rw [if_neg (mt Int.natCast_inj.mp heq), if_pos (by omega)]
      obtain ⟨a, ha⟩ := h.logical_at hi
      obtain ⟨b, hb⟩ := h.logical_at hj
      have hitem := List.getElem?_eq_getElem hi
      have hother := List.getElem?_eq_getElem hj
      generalize d.sectionItems[i] = item at hitem
      generalize d.sectionItems[j] = other at hother
      have hinverse := h.inverse.swap hb ha
      have hlogicals := replaced_set hb ha
      have hitems := replaced_set hother hitem
      have hdone := h.reindex hinverse hlogicals hitems
      have hsize : ∀ x : BitVec 20, BitVec.ofInt 20 x.toNat = x := fun x => by
        rw [BitVec.ofInt_natCast, BitVec.ofNat_toNat, BitVec.setWidth_eq]
      have hset : (d.sectionItems.set j
          { other with size := item.size, resizeMode := item.resizeMode })[i]? = some item := by
        rw [List.getElem?_set_ne (Ne.symm heq), hitem]
      have hv := h.inverse.length_eq
      have hl := h.length_logicals
      have hav := h.inverse.lt ha
      have hbv := h.inverse.lt hb
      dsimp only
      rw [headerSectionSize_eq hitem, headerSectionResizeMode_eq hitem, h.logicalIndex_eq ha,
        ok_bind, headerSectionSize_eq hother, headerSectionResizeMode_eq hother,
        h.logicalIndex_eq hb, ok_bind, createSectionItems_eq hother, hsize,
        createSectionItems_eq hset, hsize,
        h.initializeIndexMapping_items (by rw [List.length_set, List.length_set])]
      dsimp only
      rw [store_eq (hv ▸ hav), ok_bind, store_eq (hl ▸ hj), ok_bind,
        store_eq (by rwa [List.length_set, hv]), ok_bind,
        store_eq (by rwa [List.length_set, hl]), ok_bind]
      split
      next hempty =>
        -- No section is hidden.
        have hnone : ∀ x ∈ d.tagged, x.2.isHidden = false := by
          intro x hx
          rw [h.flags x hx, AList.lookup, List.isEmpty_iff.mp hempty]
          rfl
        have hflag := hnone _ (List.mem_of_getElem? (WellFormed.tagged_at ha hitem))
        have hflag' := hnone _ (List.mem_of_getElem? (WellFormed.tagged_at hb hother))
        refine ⟨_, rfl, ?_⟩
        dsimp only at hflag hflag'
        obtain ⟨size, hidden, mode⟩ := item
        obtain ⟨size', hidden', mode'⟩ := other
        dsimp only at hflag hflag' ⊢
        rw [hflag, hflag'] at hdone ⊢
        exact ⟨hdone.1, rfl, (swapPlace_comm j i ▸ hdone.2).unique hswapped⟩
      next =>
        set first : SectionItem := { item with size := other.size, resizeMode := other.resizeMode }
        set second : SectionItem := { other with size := item.size, resizeMode := item.resizeMode }
        have hfirst : ((d.sectionItems.set j second).set i first)[i]? = some first :=
          List.getElem?_set_self (by rwa [List.length_set])
        have hsecond : ((d.sectionItems.set j second).set i first)[j]? = some second := by
          rw [List.getElem?_set_ne heq]
          exact List.getElem?_set_self hj
        have hsecond' : (((d.sectionItems.set j second).set i first).set i
            { first with isHidden := second.isHidden })[j]? = some second := by
          rw [List.getElem?_set_ne heq, hsecond]
        have hsame : (((d.sectionItems.set j second).set i first).set i
              { first with isHidden := second.isHidden }).set j
              { second with isHidden := first.isHidden }
            = (d.sectionItems.set j item).set i other := by
          rw [List.set_set, List.set_comm _ _ heq, List.set_set]
        rw [isVisualIndexHidden_eq hfirst, ok_bind, isVisualIndexHidden_eq hsecond, ok_bind,
          setVisualIndexHidden_eq hfirst, ok_bind, setVisualIndexHidden_eq hsecond', hsame]
        exact ⟨_, rfl, hdone.1, rfl, (swapPlace_comm j i ▸ hdone.2).unique hswapped⟩

end QHeaderView
