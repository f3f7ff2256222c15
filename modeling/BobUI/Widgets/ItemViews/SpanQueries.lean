import BobUI.Widgets.ItemViews.SpanIndex
import Mathlib.Data.List.Sort

/-!
# The spans in a rectangle

`spansInRect` of `qtableview.cpp`, and the iterators of `cleanSpanSubIndex`.  Both step an iterator
back, which has no meaning at the beginning of a map.  Where the rows of the index are not empty,
`spansInRect` finds the spans that meet the rectangle or start in the row or the column behind it.
-/

namespace QSpanCollection

/-! ### The code -/

section

variable {V : Type}

/-- The place where a walk over a map begins: `lowerBound`, or the entry in front of the end, which
is there unless the map is empty. -/
def walkFrom (m : OrderedMap ℤ V) (key : ℤ) : Option ℤ :=
  match m.lowerBound key with
  | some k => some k
  | none => m.keys.getLast?

end

section

variable (heap : SpanId → Span) (x y w h : ℤ)

/-- The walk over the spans of a row, under the keys from the one where it begins down. -/
def collectColumns (subIndex : SubIndex) : List ℤ → List SpanId → List SpanId
  | [], found => found
  | l :: keys, found =>
    if -l ≤ x + w then
      match subIndex.get? l with
      | none => collectColumns subIndex keys found
      | some s =>
        collectColumns subIndex keys
          (if (heap s).bottom ≥ y ∧ (heap s).right ≥ x then found.insert s else found)
    else found

/-- The walk over the rows; `none` if an iterator is stepped back at the beginning of a row that is
empty. -/
def collectRows (index : Index) : List ℤ → List SpanId → Option (List SpanId)
  | [], found => some found
  | k :: keys, found =>
    if -k ≤ y + h then
      let subIndex := (index.get? k).getD .empty
      match walkFrom subIndex (-x) with
      | none => none
      | some l =>
        collectRows index keys (collectColumns heap x y w subIndex (subIndex.keysDown l) found)
    else some found

end

/-- `spansInRect`; `none` if an iterator is stepped back at the beginning of an empty map. -/
def spansInRect (c : QSpanCollection) (x y w h : ℤ) : Option (List SpanId) :=
  match walkFrom c.index (-y) with
  | none => none
  | some k => collectRows c.heap x y w h c.index (c.index.keysDown k) []

/-! ### The iterators of `cleanSpanSubIndex` -/

section

variable (m : SubIndex)

/-- The keys in front of an iterator, which stands at a key or, where it is `none`, at the end. -/
def inFront : Option ℤ → List ℤ
  | some k => m.keys.filter (· < k)
  | none => m.keys

/-- The iterator that `erase` returns for the entry at `k`. -/
def behind (k : ℤ) : Option ℤ :=
  m.keys.find? (k < ·)

end

/-- The variables of the loop of `cleanSpanSubIndex`. -/
structure Cleaning where
  subIndex : SubIndex
  it : Option ℤ
  shouldBeDeleted : Bool

section

variable (heap : SpanId → Span) (y : ℤ) (update : Bool)

/-- One turn; `none` if the iterator is stepped back at the beginning. -/
def Cleaning.turn (s : Cleaning) : Option Cleaning :=
  match (inFront s.subIndex s.it).getLast? with
  | none => none
  | some k =>
    match s.subIndex.get? k with
    | none => some { s with it := some k }
    | some span =>
      if (heap span).willBeDeleted then
        some { s with
          subIndex := s.subIndex.erase k
          it := behind (s.subIndex.erase k) k }
      else
        let s :=
          if update ∧ (heap span).left ≠ -k then
            let subIndex := (s.subIndex.insert (-(heap span).left) span).erase k
            { s with subIndex := subIndex, it := behind subIndex k }
          else { s with it := some k }
        some { s with shouldBeDeleted := s.shouldBeDeleted && (heap span).top ≠ y }

/-- The states in which a turn begins. -/
inductive Cleans (subIndex : SubIndex) : Cleaning → Prop where
  | start : Cleans subIndex ⟨subIndex, none, true⟩
  | again {s s' : Cleaning} (h : Cleans subIndex s) (h_turn : s.turn heap y update = some s')
    (h_begin : inFront s'.subIndex s'.it ≠ []) : Cleans subIndex s'

variable {heap y update}

/-- The loop never steps an iterator back from the beginning. -/
theorem Cleans.turn_isSome {subIndex : SubIndex} (hnonempty : subIndex.isEmpty = false)
    {s : Cleaning} (h : Cleans heap y update subIndex s) :
  ∃ s', s.turn heap y update = some s'
  := by
  have hfront : inFront s.subIndex s.it ≠ [] := by
    cases h with
    | start =>
      intro hkeys
      rw [inFront, OrderedMap.keys, List.map_eq_nil_iff] at hkeys
      rw [OrderedMap.isEmpty, hkeys] at hnonempty
      cases hnonempty
    | again h hturn hbegin => exact hbegin
  obtain ⟨k, hk⟩ := Option.isSome_iff_exists.mp (List.getLast?_isSome.mpr hfront)
  rw [Cleaning.turn, hk]
  dsimp only
  cases s.subIndex.get? k with
  | none => exact ⟨_, rfl⟩
  | some span =>
    dsimp only
    split_ifs
    · exact ⟨_, rfl⟩
    · exact ⟨_, rfl⟩
    · exact ⟨_, rfl⟩

end

/-! ### What the loop does -/

theorem mem_inFront {m : SubIndex} {it : Option ℤ} {l : ℤ} :
  l ∈ inFront m it ↔ l ∈ m.keys ∧ ∀ k, it = some k → l < k
  := by
  cases it with
  | none => simp [inFront]
  | some k => simp [inFront, eq_comm]

theorem sorted_inFront (m : SubIndex) (it : Option ℤ) :
  (inFront m it).Pairwise (· < ·)
  := by
  cases it with
  | none => exact m.sorted_keys
  | some k => exact m.sorted_keys.filter _

/-- The keys in front of the last one in front of an iterator. -/
theorem inFront_concat {m : SubIndex} {it : Option ℤ} {keys : List ℤ} {k : ℤ}
    (h : inFront m it = keys ++ [k]) :
  keys = inFront m (some k)
  := by
  have hsorted := sorted_inFront m it
  have hk := mem_inFront.mp (h ▸ List.mem_append_right keys List.mem_cons_self)
  rw [h, List.pairwise_append] at hsorted
  apply List.Pairwise.eq_of_mem_iff hsorted.1 (sorted_inFront m (some k))
  intro l
  rw [mem_inFront]
  constructor
  · intro hl
    have hkey := (mem_inFront.mp (h ▸ List.mem_append_left [k] hl)).1
    use hkey
    rintro k' ⟨⟩
    exact hsorted.2.2 l hl k List.mem_cons_self
  · rintro ⟨hkey, hlt⟩
    have hl : l ∈ inFront m it := by
      rw [mem_inFront]
      use hkey
      intro k' hk'
      exact Int.lt_trans (hlt k rfl) (hk.2 k' hk')
    rw [h, List.mem_append, List.mem_singleton] at hl
    rcases hl with hl | rfl
    · exact hl
    · exact absurd (hlt l rfl) (Int.lt_irrefl l)

/-- Behind an entry that is erased, the keys in front are those that were in front of it. -/
theorem inFront_behind {m m' : SubIndex} {k : ℤ} (hk : m'.get? k = none)
    (h : ∀ l, l < k → m'.get? l = m.get? l) :
  inFront m' (behind m' k) = inFront m (some k)
  := by
  apply List.Pairwise.eq_of_mem_iff (sorted_inFront _ _) (sorted_inFront _ _)
  intro l
  rw [mem_inFront, mem_inFront, OrderedMap.mem_keys_iff, OrderedMap.mem_keys_iff]
  constructor
  · rintro ⟨hl, hlt⟩
    have hbefore : l < k := by
      by_contra hge
      have hkey := OrderedMap.mem_keys_iff.mpr hl
      have hne : l ≠ k := by
        rintro rfl
        rw [hk] at hl
        obtain ⟨a, ha⟩ := hl
        cases ha
      cases hit : behind m' k with
      | none =>
        have hnone := List.find?_eq_none.mp hit l hkey
        rw [decide_eq_true_eq] at hnone
        omega
      | some k' =>
        obtain ⟨hgt, before, after, hkeys, hbefore⟩ := List.find?_eq_some_iff_append.mp hit
        have hsorted := m'.sorted_keys
        rw [hkeys, List.pairwise_append, List.pairwise_cons] at hsorted
        have hlt' := hlt k' hit
        rw [hkeys, List.mem_append, List.mem_cons] at hkey
        rcases hkey with hkey | rfl | hkey
        · have hnot := hbefore l hkey
          rw [Bool.not_eq_true', decide_eq_false_iff_not] at hnot
          omega
        · exact Int.lt_irrefl l hlt'
        · have hlater := hsorted.2.1.1 l hkey
          omega
    rw [h l hbefore] at hl
    use hl
    rintro k' ⟨⟩
    exact hbefore
  · rintro ⟨hl, hlt⟩
    have hbefore := hlt k rfl
    rw [h l hbefore]
    use hl
    intro k' hk'
    have hgt := List.find?_some hk'
    rw [decide_eq_true_eq] at hgt
    omega

section

variable {heap : SpanId → Span} {y : ℤ} {update : Bool}

/-- A turn does what `cleanKeys` does for the last key in front of the iterator. -/
theorem Cleaning.turn_ends {s : Cleaning} {keys : List ℤ} {k : ℤ}
    (hfront : inFront s.subIndex s.it = keys.reverse ++ [k])
    (hleft : ∀ a, s.subIndex.get? k = some a → update = true → (heap a).left ≤ -k) :
  ∃ s', s.turn heap y update = some s'
    ∧ inFront s'.subIndex s'.it = keys.reverse
    ∧ (∀ l, l < k → s'.subIndex.get? l = s.subIndex.get? l)
    ∧ cleanKeys heap y update (k :: keys) s.subIndex s.shouldBeDeleted
      = cleanKeys heap y update keys s'.subIndex s'.shouldBeDeleted
  := by
  have hkeys := inFront_concat hfront
  rw [turn, hfront, List.getLast?_concat, cleanKeys, hkeys]
  dsimp only
  cases hget : s.subIndex.get? k with
  | none => exact ⟨_, rfl, rfl, fun _ _ => rfl, rfl⟩
  | some span =>
    dsimp only
    by_cases hdeleted : (heap span).willBeDeleted = true
    · rw [if_pos hdeleted, if_pos hdeleted]
      have hothers : ∀ l, l < k → (s.subIndex.erase k).get? l = s.subIndex.get? l := by
        intro l hl
        rw [OrderedMap.get?_erase, if_neg (by omega)]
      refine ⟨_, rfl, ?_, hothers, rfl⟩
      apply inFront_behind _ hothers
      rw [OrderedMap.get?_erase, if_pos rfl]
    · rw [if_neg hdeleted, if_neg hdeleted]
      by_cases hmoved : update = true ∧ (heap span).left ≠ -k
      · rw [if_pos hmoved, if_pos hmoved]
        have hle := hleft span hget hmoved.1
        have hothers : ∀ l, l < k →
            ((s.subIndex.insert (-(heap span).left) span).erase k).get? l
              = s.subIndex.get? l := by
          intro l hl
          rw [OrderedMap.get?_erase, if_neg (by omega), OrderedMap.get?_insert,
            if_neg (by omega)]
        refine ⟨_, rfl, ?_, hothers, rfl⟩
        apply inFront_behind _ hothers
        rw [OrderedMap.get?_erase, if_pos rfl]
      · rw [if_neg hmoved, if_neg hmoved]
        exact ⟨_, rfl, rfl, fun _ _ => rfl, rfl⟩

/-- The loop comes back to the beginning with what `cleanSpanSubIndex` gives. -/
theorem Cleans.ends {subIndex : SubIndex} {s : Cleaning} {keys : List ℤ} {k : ℤ}
    (h : Cleans heap y update subIndex s)
    (hfront : inFront s.subIndex s.it = keys.reverse ++ [k])
    (hsorted : (k :: keys).Pairwise (· > ·))
    (hleft : ∀ l ∈ k :: keys, ∀ a, s.subIndex.get? l = some a → update = true →
      (heap a).left ≤ -l) :
  ∃ s' s'', Cleans heap y update subIndex s' ∧ s'.turn heap y update = some s''
    ∧ inFront s''.subIndex s''.it = []
    ∧ cleanKeys heap y update (k :: keys) s.subIndex s.shouldBeDeleted
      = (s''.subIndex, s''.shouldBeDeleted)
  := by
  induction keys generalizing s k with
  | nil =>
    obtain ⟨s', hturn, hend, -, hclean⟩ := Cleaning.turn_ends (y := y) hfront
      (hleft k List.mem_cons_self)
    exact ⟨s, s', h, hturn, hend, hclean⟩
  | cons k' keys ih =>
    obtain ⟨s', hturn, hfront', hothers, hclean⟩ := Cleaning.turn_ends (y := y) hfront
      (hleft k List.mem_cons_self)
    rw [List.pairwise_cons] at hsorted
    rw [List.reverse_cons] at hfront'
    have hagain : Cleans heap y update subIndex s' := by
      apply h.again hturn
      rw [hfront']
      apply List.concat_ne_nil
    rw [hclean]
    apply ih hagain hfront' hsorted.2
    intro l hl a ha
    rw [hothers l (hsorted.1 l hl)] at ha
    apply hleft l (List.mem_cons_of_mem k hl) a ha

end

/-! ### Walks -/

section

variable {V : Type} {m : OrderedMap ℤ V}

/-- A walk begins at the key that is searched for or the next one, or else at the last key. -/
theorem walkFrom_ends (h : m.keys ≠ []) (key : ℤ) :
  ∃ k, walkFrom m key = some k ∧ k ∈ m.keys ∧ (∀ l ∈ m.keys, key ≤ l → k ≤ l)
    ∧ ∀ l ∈ m.keys, k < l → key ≤ k
  := by
  rw [walkFrom]
  cases hbound : m.lowerBound key with
  | some k =>
    obtain ⟨hmem, hle, hleast⟩ := OrderedMap.lowerBound_eq_some hbound
    exact ⟨k, rfl, hmem, hleast, fun _ _ _ => hle⟩
  | none =>
    rw [OrderedMap.lowerBound_eq_none] at hbound
    obtain ⟨k, hlast⟩ := Option.isSome_iff_exists.mp (List.getLast?_isSome.mpr h)
    obtain ⟨keys, hkeys⟩ := List.getLast?_eq_some_iff.mp hlast
    have hsorted := m.sorted_keys
    refine ⟨k, hlast, List.mem_of_getLast? hlast, ?_, ?_⟩
    · intro l hl hle
      have hlt := hbound l hl
      omega
    · intro l hl hlt
      rw [hkeys, List.pairwise_append] at hsorted
      rw [hkeys, List.mem_append, List.mem_singleton] at hl
      rcases hl with hl | rfl
      · have hbefore := hsorted.2.2 l hl k List.mem_cons_self
        omega
      · omega

end

/-! ### The spans that are found -/

variable {heap : SpanId → Span} {x y w h : ℤ}

theorem mem_collectColumns {subIndex : SubIndex} {keys : List ℤ} (hsorted : keys.Pairwise (· > ·))
    (found : List SpanId) (a : SpanId) :
  a ∈ collectColumns heap x y w subIndex keys found
    ↔ a ∈ found ∨ ∃ l ∈ keys, -l ≤ x + w ∧ subIndex.get? l = some a ∧ y ≤ (heap a).bottom
      ∧ x ≤ (heap a).right
  := by
  induction keys generalizing found with
  | nil => simp [collectColumns]
  | cons l keys ih =>
    rw [List.pairwise_cons] at hsorted
    rw [collectColumns, List.exists_mem_cons_iff]
    by_cases hl : -l ≤ x + w
    · rw [if_pos hl]
      cases hget : subIndex.get? l with
      | none =>
        rw [ih hsorted.2]
        simp
      | some s =>
        dsimp only
        rw [ih hsorted.2]
        by_cases hs : (heap s).bottom ≥ y ∧ (heap s).right ≥ x
        · rw [if_pos hs, List.mem_insert_iff, Option.some_inj]
          constructor
          · rintro ((rfl | ha) | ha)
            · exact Or.inr (Or.inl ⟨hl, rfl, hs⟩)
            · exact Or.inl ha
            · exact Or.inr (Or.inr ha)
          · rintro (ha | ⟨-, rfl, -⟩ | ha)
            · exact Or.inl (Or.inr ha)
            · exact Or.inl (Or.inl rfl)
            · exact Or.inr ha
        · rw [if_neg hs, Option.some_inj]
          constructor
          · rintro (ha | ha)
            · exact Or.inl ha
            · exact Or.inr (Or.inr ha)
          · rintro (ha | ⟨-, rfl, ha⟩ | ha)
            · exact Or.inl ha
            · exact absurd ha hs
            · exact Or.inr ha
    · rw [if_neg hl]
      constructor
      · exact Or.inl
      · rintro (ha | ⟨hle, -⟩ | ⟨k, hk, hle, -⟩)
        · exact ha
        · exact absurd hle hl
        · have hlt := hsorted.1 k hk
          omega

/-- A span that is found in a row. -/
def FoundIn (heap : SpanId → Span) (x y w : ℤ) (subIndex : SubIndex) (a : SpanId) : Prop :=
  ∃ l₀, walkFrom subIndex (-x) = some l₀ ∧ ∃ l ∈ subIndex.keysDown l₀, -l ≤ x + w
    ∧ subIndex.get? l = some a ∧ y ≤ (heap a).bottom ∧ x ≤ (heap a).right

variable (heap x y w h) in
theorem collectRows_ends (index : Index) {keys : List ℤ} (hsorted : keys.Pairwise (· > ·))
    (hrows : ∀ k ∈ keys, ∃ subIndex, index.get? k = some subIndex ∧ subIndex.keys ≠ [])
    (found : List SpanId) :
  ∃ found', collectRows heap x y w h index keys found = some found'
    ∧ ∀ a, a ∈ found' ↔ a ∈ found ∨ ∃ k ∈ keys, -k ≤ y + h ∧ ∃ subIndex,
      index.get? k = some subIndex ∧ FoundIn heap x y w subIndex a
  := by
  induction keys generalizing found with
  | nil =>
    use found, rfl
    simp
  | cons k keys ih =>
    rw [List.pairwise_cons] at hsorted
    rw [List.forall_mem_cons] at hrows
    obtain ⟨⟨subIndex, hget, hnonempty⟩, hrest⟩ := hrows
    rw [collectRows]
    by_cases hk : -k ≤ y + h
    · obtain ⟨l₀, hwalk, -⟩ := walkFrom_ends hnonempty (-x)
      rw [if_pos hk, hget, Option.getD_some]
      dsimp only
      rw [hwalk]
      dsimp only
      obtain ⟨found', hfound, hmem⟩ := ih hsorted.2 hrest
        (collectColumns heap x y w subIndex (subIndex.keysDown l₀) found)
      use found', hfound
      intro a
      rw [hmem, mem_collectColumns (subIndex.sorted_keysDown l₀), List.exists_mem_cons_iff,
        or_assoc]
      apply or_congr_right
      apply or_congr_left
      constructor
      · intro ha
        exact ⟨hk, subIndex, hget, l₀, hwalk, ha⟩
      · rintro ⟨-, subIndex', hget', l, hwalk', ha⟩
        rw [hget, Option.some_inj] at hget'
        rw [← hget', hwalk, Option.some_inj] at hwalk'
        rw [hwalk', hget']
        exact ha
    · rw [if_neg hk]
      use found, rfl
      intro a
      constructor
      · exact Or.inl
      · rintro (ha | ⟨l, hl, hle, -⟩)
        · exact ha
        · rcases List.mem_cons.mp hl with rfl | hl
          · exact absurd hle hk
          · have hlt := hsorted.1 l hl
            omega

/-- No row of the index is empty. -/
def Occupied (index : Index) : Prop :=
  ∀ k subIndex, index.get? k = some subIndex → ∃ l a, subIndex.get? l = some a

/-- The cells of a rectangle with a column and a row behind them. -/
def enlarged (x y w h : ℤ) : Rect where
  rows := ⟨y, y + h⟩
  columns := ⟨x, x + w⟩

theorem overlaps_iff {r s : Rect} (hr : r.Nonempty) (hs : s.Nonempty) :
  r.Overlaps s ↔ (r.rows.first ≤ s.rows.last ∧ s.rows.first ≤ r.rows.last)
    ∧ r.columns.first ≤ s.columns.last ∧ s.columns.first ≤ r.columns.last
  := by
  constructor
  · rintro ⟨x, y, ⟨hrx, hry⟩, hsx, hsy⟩
    rw [Lines.contains] at hrx hry hsx hsy
    omega
  · rintro ⟨hrows, hcolumns⟩
    have h1 := hr.1
    have h2 := hr.2
    have h3 := hs.1
    have h4 := hs.2
    refine ⟨max r.columns.first s.columns.first, max r.rows.first s.rows.first, ⟨?_, ?_⟩, ?_, ?_⟩
    · rw [Lines.contains]
      omega
    · rw [Lines.contains]
      omega
    · rw [Lines.contains]
      omega
    · rw [Lines.contains]
      omega

/-- A span is found in every row that it crosses, unless it begins behind the rectangle or ends in
front of it. -/
theorem foundIn_of_filed {spans : List SpanId} {row : ℤ} {subIndex : SubIndex}
    (hsep : Separate heap spans) (hfiled : Filed heap spans row subIndex) {a : SpanId}
    (ha : a ∈ spans) (htop : (heap a).top ≤ row) (hrow : row ≤ (heap a).bottom)
    (hbottom : y ≤ (heap a).bottom) (hleft : (heap a).left ≤ x + w)
    (hright : x ≤ (heap a).right) :
  FoundIn heap x y w subIndex a
  := by
  have hget := (hfiled (-(heap a).left) a).mpr ⟨ha, rfl, htop, hrow⟩
  have hkey := OrderedMap.mem_keys_iff.mpr ⟨a, hget⟩
  obtain ⟨l₀, hwalk, hl₀, -, hafter⟩ := walkFrom_ends (List.ne_nil_of_mem hkey) (-x)
  refine ⟨l₀, hwalk, -(heap a).left, OrderedMap.mem_keysDown.mpr ⟨hkey, ?_⟩, by omega, hget,
    hbottom, hright⟩
  by_contra hnot
  have hx := hafter _ hkey (by omega)
  obtain ⟨b, hb⟩ := OrderedMap.mem_keys_iff.mp hl₀
  obtain ⟨hmem, hcolumn, htopB, hrowB⟩ := (hfiled l₀ b).mp hb
  have hwidth := (hsep.nonempty b hmem).2
  change (heap b).left ≤ (heap b).right at hwidth
  -- The walk begins at a later span, which would overlap this one.
  have heq : a = b := by
    apply hsep.disjoint a ha b hmem
    refine ⟨-l₀, row, ⟨⟨?_, ?_⟩, htop, hrow⟩, ⟨?_, ?_⟩, htopB, hrowB⟩
    · change (heap a).left ≤ -l₀
      omega
    · change -l₀ ≤ (heap a).right
      omega
    · change (heap b).left ≤ -l₀
      omega
    · change -l₀ ≤ (heap b).right
      omega
  rw [heq] at hnot
  omega

/-- `spansInRect` finds the spans that meet the rectangle with a row and a column more. -/
theorem spansInRect_ends {c : QSpanCollection} (hsep : Separate c.heap c.spans)
    (hindex : Indexed c.heap c.spans c.index) (hoccupied : Occupied c.index)
    (hspans : c.spans ≠ []) (hw : 0 ≤ w) (hh : 0 ≤ h) :
  ∃ found, c.spansInRect x y w h = some found
    ∧ ∀ a, a ∈ found ↔ a ∈ c.spans ∧ (c.heap a).rect.Overlaps (enlarged x y w h)
  := by
  have hkeys : c.index.keys ≠ [] := by
    obtain ⟨a, ha⟩ := List.exists_mem_of_ne_nil _ hspans
    apply List.ne_nil_of_mem (OrderedMap.mem_keys_iff.mpr (hindex.starts a ha))
  obtain ⟨k₀, hwalk, hk₀, hbefore, hafter⟩ := walkFrom_ends hkeys (-y)
  obtain ⟨found, hfound, hmem⟩ := collectRows_ends c.heap x y w h c.index
    (c.index.sorted_keysDown k₀) (by
      intro k hk
      obtain ⟨subIndex, hget⟩ := OrderedMap.mem_keys_iff.mp (OrderedMap.mem_keysDown.mp hk).1
      obtain ⟨l, a, ha⟩ := hoccupied k subIndex hget
      exact ⟨subIndex, hget, List.ne_nil_of_mem (OrderedMap.mem_keys_iff.mpr ⟨a, ha⟩)⟩) []
  have henlarged : (enlarged x y w h).Nonempty := by
    constructor
    · change y ≤ y + h
      omega
    · change x ≤ x + w
      omega
  use found
  rw [spansInRect, hwalk]
  use hfound
  intro a
  rw [hmem]
  constructor
  · rintro (hnone | ⟨k, hk, hlast, subIndex, hget, l₀, -, l, -, hl, ha, hbottom, hright⟩)
    · cases hnone
    · obtain ⟨hspan, hleft, htop, -⟩ := (hindex.filed k subIndex hget l a).mp ha
      use hspan
      rw [overlaps_iff (hsep.nonempty a hspan) henlarged]
      change ((c.heap a).top ≤ y + h ∧ y ≤ (c.heap a).bottom)
        ∧ (c.heap a).left ≤ x + w ∧ x ≤ (c.heap a).right
      omega
  · rintro ⟨ha, hover⟩
    rw [overlaps_iff (hsep.nonempty a ha) henlarged] at hover
    change ((c.heap a).top ≤ y + h ∧ y ≤ (c.heap a).bottom)
      ∧ (c.heap a).left ≤ x + w ∧ x ≤ (c.heap a).right at hover
    have hheight : (c.heap a).top ≤ (c.heap a).bottom := (hsep.nonempty a ha).1
    have hstart := OrderedMap.mem_keys_iff.mpr (hindex.starts a ha)
    -- A row of the walk that the span crosses.
    have hrow : ∃ k ∈ c.index.keysDown k₀, -k ≤ y + h ∧ (c.heap a).top ≤ -k
        ∧ -k ≤ (c.heap a).bottom := by
      by_cases htop : (c.heap a).top ≤ y
      · have hle := hbefore _ hstart (by omega)
        have hge : -y ≤ k₀ := by
          by_contra hlt
          have hwalked := hafter _ hstart (by omega)
          omega
        refine ⟨k₀, OrderedMap.mem_keysDown.mpr ⟨hk₀, le_refl k₀⟩, ?_⟩
        omega
      · have hle : -(c.heap a).top ≤ k₀ := by
          by_contra hlt
          have hwalked := hafter _ hstart (by omega)
          omega
        refine ⟨_, OrderedMap.mem_keysDown.mpr ⟨hstart, hle⟩, ?_⟩
        omega
    obtain ⟨k, hk, hlast, htop, hbottom⟩ := hrow
    obtain ⟨subIndex, hget⟩ := OrderedMap.mem_keys_iff.mp (OrderedMap.mem_keysDown.mp hk).1
    refine Or.inr ⟨k, hk, hlast, subIndex, hget, ?_⟩
    apply foundIn_of_filed hsep (hindex.filed k subIndex hget) ha htop hbottom hover.1.2
      hover.2.1 hover.2.2

end QSpanCollection
