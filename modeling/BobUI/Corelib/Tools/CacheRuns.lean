import BobUI.Corelib.Tools.SlidingWindow

/-!
# Caches under operations

A cache shows its window after any operations, as far as it has a capacity: without one,
`areIndexesValid` divides by zero, where the operations return early.
-/

namespace QContiguousCache

open IndexedRings

variable {T : Type}

/-- The queries answer what the window says.  The elements are found by valid indices only. -/
structure Shows (w : Window T) (c : QContiguousCache T) : Prop where
  firstIndex : c.firstIndex = w.first
  lastIndex : c.lastIndex = w.first + w.count - 1
  count_le : c.count ≤ c.alloc
  areIndexesValid : c.areIndexesValid = some (decide w.Valid)
  at_index : w.Valid → ∀ pos, c.firstIndex ≤ pos → pos ≤ c.lastIndex →
    (w.stored pos).isSome ∧ c.at? pos = w.stored pos
  first : 0 < c.count → (w.stored w.first).isSome ∧ c.first? = w.stored w.first
  last : 0 < c.count → (w.stored c.lastIndex).isSome ∧ c.last? = w.stored c.lastIndex

/-- The indices become invalid only in front of index 0, or at the end of the indices. -/
def StaysValid (c : QContiguousCache T) (operation : Operation T) : Prop :=
  ∀ next, c.apply operation = some next → next.areIndexesValid = some false →
    (c.firstIndex = 0 ∧ ∃ value, operation = .prepend value)
      ∨ maxSize ≤ next.firstIndex + next.count

/-- After any of the operations, from an empty cache on, the cache shows its window. -/
def Slides (capacity : ℕ) (operations : List (Operation T)) : Prop :=
  ∀ before after, operations = before ++ after →
    ∃ c, (new T capacity).run before = some c ∧ Shows ((Window.new T capacity).run before) c
      ∧ ∀ operation rest, after = operation :: rest → c.StaysValid operation

namespace Window

variable {w : Window T} {array : List (Option T)} {operation : Operation T}
  {operations : List (Operation T)}

theorem shows_cache (h : w.Stores array) (hne : w.capacity ≠ 0) :
  Shows w (w.cache array)
  where
  firstIndex := rfl
  lastIndex := rfl
  count_le := h.count_le
  areIndexesValid := by
    rw [areIndexesValid_cache, if_neg hne]
    split
    next hvalid => rw [decide_eq_true hvalid]
    next hnot => rw [decide_eq_false hnot]
  at_index := by
    intro hvalid pos hpos hpos'
    dsimp only [firstIndex, lastIndex, cache] at hpos hpos'
    have hfirst := hvalid.1
    obtain ⟨hsome, hread⟩ := read_slot h.holds hpos (by omega)
    rw [h.length] at hread
    use hsome
    rw [at?]
    dsimp only [cache]
    rw [indexPlace_slot (Nat.pos_of_ne_zero hne) (by omega), Option.bind_eq_bind,
      Option.bind_some, hread]
  first := by
    intro hcount
    dsimp only [cache] at hcount
    obtain ⟨hsome, hread⟩ := read_slot h.holds (le_refl w.first) (by omega)
    rw [h.length] at hread
    use hsome
    rw [first?]
    dsimp only [cache]
    rw [start_of_pos hne, hread]
  last := by
    intro hcount
    dsimp only [cache] at hcount
    obtain ⟨hsome, hread⟩ := read_slot h.holds (i := w.first + w.count - 1) (by omega) (by omega)
    rw [h.length] at hread
    use hsome
    rw [last?]
    dsimp only [cache, lastIndex]
    rw [start_of_pos hne, modulo_last (Nat.pos_of_ne_zero hne) hcount, Option.bind_eq_bind,
      Option.bind_some, hread]

/-! ### Valid indices -/

theorem first_of_allowed (h : (w.cache array).Allowed operation) :
  0 ≤ w.first ∨ operation = .normalizeIndexes
  := by
  rw [or_iff_not_imp_left]
  intro hneg
  apply h.2
  rw [areIndexesValid_cache, if_neg (fun hvalid => hneg hvalid.1)]

theorem insert_first_nonneg (h : 0 ≤ w.first) {pos : ℤ} (hpos : 0 ≤ pos) (value : T) :
  0 ≤ (w.insert pos value).first
  := by
  rw [Window.insert]
  split
  next => exact h
  next hne =>
    split
    next => exact h
    next =>
      split
      next hbefore =>
        rw [Window.prepend, if_neg hne, ← hbefore]
        exact hpos
      next =>
        split
        next =>
          rw [Window.append, if_neg hne]
          dsimp only
          split
          · omega
          · exact h
        next => exact hpos

/-- The first index stays, but for an object in front of index 0. -/
theorem apply_first_nonneg (h : 0 ≤ w.first ∨ operation = .normalizeIndexes)
    (hasserts : (w.cache array).Asserts operation)
    (hzero : ¬ (w.first = 0 ∧ ∃ value, operation = .prepend value)) :
  0 ≤ (w.apply operation).first
  := by
  cases operation with
  | append value =>
    have hfirst := h.resolve_right (by rintro ⟨⟩)
    rw [apply, Window.append]
    split
    next => exact hfirst
    next =>
      dsimp only
      split
      · omega
      · exact hfirst
  | prepend value =>
    have hfirst := h.resolve_right (by rintro ⟨⟩)
    have hne : w.first ≠ 0 := fun h => hzero ⟨h, value, rfl⟩
    rw [apply, Window.prepend]
    split
    next => exact hfirst
    next =>
      dsimp only
      omega
  | insert pos value =>
    exact insert_first_nonneg (h.resolve_right (by rintro ⟨⟩)) hasserts value
  | removeFirst =>
    have hfirst := h.resolve_right (by rintro ⟨⟩)
    dsimp only [apply, Window.removeFirst]
    omega
  | removeLast => exact h.resolve_right (by rintro ⟨⟩)
  | setCapacity size =>
    have hfirst := h.resolve_right (by rintro ⟨⟩)
    dsimp only [apply, Window.setCapacity]
    omega
  | normalizeIndexes =>
    rw [apply, normalizeIndexes_first]
    exact Int.natCast_nonneg _

theorem staysValid_cache (h : w.Stores array) (hallowed : (w.cache array).Allowed operation) :
  (w.cache array).StaysValid operation
  := by
  intro next hnext hfalse
  obtain ⟨array', happly, hstores⟩ := h.apply hallowed
  rw [happly, Option.some.injEq] at hnext
  rw [← hnext, areIndexesValid_cache] at hfalse
  rw [or_iff_not_imp_left, ← hnext]
  intro hzero
  have hnonneg := apply_first_nonneg (first_of_allowed hallowed) hallowed.1 hzero
  have hnot : ¬ (w.apply operation).Valid := by
    intro hvalid
    rw [if_pos hvalid] at hfalse
    split at hfalse
    · exact nomatch hfalse
    · exact nomatch hfalse
  rw [Valid, not_and, not_lt] at hnot
  have hmax := hnot hnonneg
  dsimp only [firstIndex, cache]
  omega

/-! ### The capacity -/

theorem run_append (w : Window T) (before after : List (Operation T)) :
  w.run (before ++ after) = (w.run before).run after
  := List.foldl_append

theorem apply_capacity (w : Window T) (h : operation ≠ .setCapacity 0) (hne : w.capacity ≠ 0) :
  (w.apply operation).capacity ≠ 0
  := by
  cases operation with
  | append value => rwa [apply, Window.append, if_neg hne]
  | prepend value => rwa [apply, Window.prepend, if_neg hne]
  | insert pos value =>
    rw [apply, Window.insert, if_neg hne, Window.prepend, if_neg hne, Window.append, if_neg hne]
    split_ifs
    all_goals exact hne
  | removeFirst => exact hne
  | removeLast => exact hne
  | setCapacity size =>
    intro hzero
    exact h (congrArg Operation.setCapacity hzero)
  | normalizeIndexes => exact hne

theorem run_capacity (h : .setCapacity 0 ∉ operations) (hne : w.capacity ≠ 0) :
  (w.run operations).capacity ≠ 0
  := by
  induction operations generalizing w with
  | nil => exact hne
  | cons operation operations ih =>
    rw [List.mem_cons, not_or] at h
    exact ih h.2 (w.apply_capacity (Ne.symm h.1) hne)

end Window

/-! ### Runs -/

variable {c next : QContiguousCache T} {operation : Operation T} {operations : List (Operation T)}

theorem AllAllowed.split {before after : List (Operation T)}
    (h : c.AllAllowed (before ++ after)) :
  c.AllAllowed before ∧ ∀ next, c.run before = some next → next.AllAllowed after
  := by
  induction before generalizing c with
  | nil =>
    use trivial
    intro next hnext
    rw [run, Option.some.injEq] at hnext
    rwa [← hnext]
  | cons operation before ih =>
    constructor
    · use h.1
      intro next hnext
      exact (ih (h.2 next hnext)).1
    · intro last hlast
      rw [run, Option.bind_eq_some_iff] at hlast
      obtain ⟨next, hnext, hlast⟩ := hlast
      exact (ih (h.2 next hnext)).2 last hlast

/-- A further operation, with valid indices. -/
theorem AllAllowed.cons (hasserts : c.Asserts operation) (hvalid : c.areIndexesValid = some true)
    (happly : c.apply operation = some next) (hnext : next.AllAllowed operations) :
  c.AllAllowed (operation :: operations)
  := by
  use ⟨hasserts, fun hfalse => nomatch hvalid.symm.trans hfalse⟩
  intro next' hnext'
  rw [happly, Option.some.injEq] at hnext'
  rwa [← hnext']

theorem new_eq_cache (capacity : ℕ) :
  new T capacity = (Window.new T capacity).cache (List.replicate capacity none)
  := by
  rw [Window.cache, Window.start_new]
  rfl

/-- The cache of a window, after operations that are allowed. -/
theorem run_new (capacity : ℕ) (h : (new T capacity).AllAllowed operations) :
  ∃ array, (new T capacity).run operations
      = some (((Window.new T capacity).run operations).cache array)
    ∧ ((Window.new T capacity).run operations).Stores array
  := by
  rw [new_eq_cache] at h ⊢
  exact (Window.stores_new capacity).run h

/-- Without capacity, the cache does not show its window. -/
theorem not_shows (capacity : ℕ) (h : (new T capacity).AllAllowed operations)
    (hzero : ((Window.new T capacity).run operations).capacity = 0)
    (hrun : (new T capacity).run operations = some c) :
  ¬ Shows ((Window.new T capacity).run operations) c
  := by
  intro hshows
  obtain ⟨array, hrun', hstores⟩ := run_new capacity h
  rw [hrun, Option.some.injEq] at hrun'
  have hanswer := hshows.areIndexesValid
  rw [hrun', Window.areIndexesValid_cache, if_pos hzero, if_pos (hstores.valid hzero)]
    at hanswer
  exact nomatch hanswer

theorem slides_iff (capacity : ℕ) (operations : List (Operation T))
    (h : (new T capacity).AllAllowed operations) :
  Slides capacity operations ↔ capacity ≠ 0 ∧ .setCapacity 0 ∉ operations
  := by
  constructor
  · intro h_slides
    constructor
    · rintro rfl
      obtain ⟨c, h_run, h_shows, -⟩ := h_slides [] operations rfl
      apply not_shows 0 _ rfl h_run h_shows
      trivial
    · intro h_mem
      obtain ⟨before, after, rfl⟩ := List.append_of_mem h_mem
      rw [List.append_cons] at h h_slides
      obtain ⟨c, h_run, h_shows, -⟩ := h_slides _ after rfl
      apply not_shows capacity h.split.1 _ h_run h_shows
      rw [Window.run_append]
      rfl
  · rintro ⟨h_ne, h_not⟩ before after rfl
    rw [List.mem_append, not_or] at h_not
    obtain ⟨array, h_run, h_stores⟩ := run_new capacity h.split.1
    refine ⟨_, h_run, Window.shows_cache h_stores (Window.run_capacity h_not.1 h_ne), ?_⟩
    rintro operation rest rfl
    exact Window.staysValid_cache h_stores (h.split.2 _ h_run).1

/-- A window of two that moves by one. -/
theorem slides_three :
  Slides 2 [Operation.append 'a', .append 'b', .append 'c']
  := by
  apply (slides_iff 2 _ _).mpr
  · exact ⟨by decide, by simp⟩
  · apply AllAllowed.cons (by trivial) (by decide) rfl
    apply AllAllowed.cons (by trivial) (by decide) rfl
    exact AllAllowed.cons (by trivial) (by decide) rfl (by trivial)

/-- A cache without capacity divides by zero where it is asked about its indices. -/
theorem not_slides_zero :
  (new Char 0).AllAllowed [] ∧ ¬ Slides 0 ([] : List (Operation Char))
  := by
  use trivial
  intro h
  obtain ⟨c, h_run, h_shows, -⟩ := h [] [] rfl
  rw [run, Option.some.injEq] at h_run
  have h_answer := h_shows.areIndexesValid
  rw [← h_run] at h_answer
  cases h_answer

end QContiguousCache
