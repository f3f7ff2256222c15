import BobUI.Corelib.Tools.ContiguousCache

/-!
# Sliding windows

What a `QContiguousCache` is for: a window of indices, with the value last stored for each.  The
cache keeps the window, as long as the objects of both views are the same: those from `start` on,
and those at the remainders of the indices by the capacity.
-/

namespace QContiguousCache

open IndexedRings

variable {T : Type}

/-- A window of `count` indices from `first` on, and what was last stored for an index. -/
structure Window (T : Type) where
  capacity : ℕ
  first : ℤ
  count : ℕ
  stored : ℤ → Option T

namespace Window

def new (T : Type) (capacity : ℕ) : Window T where
  capacity := capacity
  first := 0
  count := 0
  stored := fun _ => none

/-- The opposite end is dropped when the window is full. -/
def append (w : Window T) (value : T) : Window T :=
  if w.capacity = 0 then w
  else
    { w with
      first := if w.count = w.capacity then w.first + 1 else w.first
      count := min (w.count + 1) w.capacity
      stored := Function.update w.stored (w.first + w.count) (some value) }

def prepend (w : Window T) (value : T) : Window T :=
  if w.capacity = 0 then w
  else
    { w with
      first := w.first - 1
      count := min (w.count + 1) w.capacity
      stored := Function.update w.stored (w.first - 1) (some value) }

/-- An index away from the window begins another one. -/
def insert (w : Window T) (pos : ℤ) (value : T) : Window T :=
  if w.capacity = 0 then w
  else if w.first ≤ pos ∧ pos < w.first + w.count then
    { w with stored := Function.update w.stored pos (some value) }
  else if pos = w.first - 1 then w.prepend value
  else if pos = w.first + w.count then w.append value
  else
    { w with
      first := pos
      count := 1
      stored := Function.update w.stored pos (some value) }

def removeFirst (w : Window T) : Window T :=
  { w with first := w.first + 1, count := w.count - 1 }

def removeLast (w : Window T) : Window T :=
  { w with count := w.count - 1 }

/-- The last elements are kept. -/
def setCapacity (w : Window T) (size : ℕ) : Window T :=
  { w with
    capacity := size
    first := w.first + w.count - min w.count size
    count := min w.count size }

/-- The indices are renumbered, from the remainder of the first on. -/
def normalizeIndexes (w : Window T) : Window T :=
  let first : ℤ := if w.capacity = 0 then 0 else slot w.capacity w.first
  { w with first := first, stored := fun i => w.stored (i - first + w.first) }

def apply (w : Window T) : Operation T → Window T
  | .append value => w.append value
  | .prepend value => w.prepend value
  | .insert pos value => w.insert pos value
  | .removeFirst => w.removeFirst
  | .removeLast => w.removeLast
  | .setCapacity size => w.setCapacity size
  | .normalizeIndexes => w.normalizeIndexes

def run (w : Window T) (operations : List (Operation T)) : Window T :=
  operations.foldl apply w

/-- The first index is not negative, and the indices end before the largest. -/
def Valid (w : Window T) : Prop :=
  0 ≤ w.first ∧ w.first < maxSize - w.count

instance (w : Window T) : Decidable w.Valid :=
  inferInstanceAs (Decidable (_ ∧ _))

end Window

namespace Window

/-- Without capacity, `start` is no remainder. -/
def start (w : Window T) : ℕ :=
  if w.capacity = 0 then 0 else slot w.capacity w.first

/-- The cache of a window, with an array. -/
def cache (w : Window T) (array : List (Option T)) : QContiguousCache T where
  alloc := w.capacity
  count := w.count
  start := w.start
  offset := w.first
  array := array

theorem start_of_pos {w : Window T} (h : w.capacity ≠ 0) :
  w.start = slot w.capacity w.first
  := if_neg h

/-- The array stores the window. -/
structure Stores (w : Window T) (array : List (Option T)) : Prop where
  length : array.length = w.capacity
  count_le : w.count ≤ w.capacity
  valid : w.capacity = 0 → w.Valid
  holds : Holds array w.first w.count w.stored

theorem start_new (capacity : ℕ) :
  (Window.new T capacity).start = 0
  := by
  rw [start]
  split
  · rfl
  · simp [slot, new]

theorem stores_new (capacity : ℕ) :
  Stores (Window.new T capacity) (List.replicate capacity none)
  where
  length := List.length_replicate
  count_le := Nat.zero_le capacity
  valid := by
    intro h
    constructor
    · apply le_refl
    · simp [new, maxSize]
  holds := holds_zero _ 0 _

end Window

/-! ### The array -/

section array

variable {array : List (Option T)} {first : ℤ} {count : ℕ} {stored : ℤ → Option T}

variable {size : ℕ}

theorem modulo_slot (h : 0 < size) (i : ℤ) (k : ℕ) :
  modulo (slot size i + k) size = some (slot size (i + k))
  := by
  rw [modulo, if_neg (by omega), slot_add h]

/-- The place of the last of some objects. -/
theorem modulo_last (h : 0 < size) (hcount : 0 < count) (i : ℤ) :
  modulo (slot size i + count - 1) size = some (slot size (i + count - 1))
  := by
  rw [Nat.add_sub_assoc hcount, modulo_slot h]
  congr 2
  omega

theorem indexPlace_slot (h : 0 < size) {i : ℤ} (hi : 0 ≤ i) :
  indexPlace i size = some (slot size i)
  := by
  rw [indexPlace, if_neg (by omega), Int.tmod_eq_emod_of_nonneg hi, slot, if_pos]
  apply Int.emod_nonneg
  omega

theorem construct_slot (hlength : array.length = size) (h : 0 < size) (i : ℤ) (value : T) :
  construct array (slot size i) value = some (array.set (slot array.length i) (some value))
  := by
  subst hlength
  rw [construct, if_pos (slot_lt h i)]

theorem destroy_slot (hlength : array.length = size) (h : 0 < size) (i : ℤ) :
  destroy array (slot size i) = some (array.set (slot array.length i) none)
  := by
  subst hlength
  rw [destroy, if_pos (slot_lt h i)]

/-- An object that is destroyed makes room for another one. -/
theorem destroy_construct (array : List (Option T)) (place : ℕ) (value : T) {α : Type}
    (f : List (Option T) → Option α) :
  ((destroy array place).bind fun array => (construct array place value).bind f)
    = (construct array place value).bind f
  := by
  rw [destroy, construct]
  split
  next h =>
    rw [Option.bind_some, Option.bind_some, construct, List.length_set, if_pos h, List.set_set,
      Option.bind_some]
  next => rfl

/-- An object of the window is found by its index. -/
theorem read_slot (h : Holds array first count stored) {i : ℤ} (hi : first ≤ i)
    (hi' : i < first + count) :
  (stored i).isSome ∧ read array (slot array.length i) = stored i
  := by
  obtain ⟨a, ha, hslot⟩ := h i hi hi'
  rw [read, hslot, ha]
  constructor
  · rfl
  · rfl

/-- `clear` stays inside of the array. -/
theorem destroyAll_length {i : ℕ} (hi : i < size) (oldcount : ℕ) (hlength : array.length = size) :
  ∃ array', destroyAll size oldcount i array = some array' ∧ array'.length = size
  := by
  induction oldcount generalizing i array with
  | zero => exact ⟨array, rfl, hlength⟩
  | succ oldcount ih =>
    have hnext : (if i + 1 = size then 0 else i + 1) < size := by
      split
      · omega
      · omega
    rw [destroyAll, destroy, if_pos (by omega)]
    apply ih hnext
    rw [List.length_set, hlength]

/-- `setCapacity` copies the elements from the last one down. -/
theorem copyDown_holds {old : List (Option T)} {total asize : ℕ} (halloc : 0 < old.length)
    (hsize : 0 < asize) (htotal : total ≤ asize) (hold : Holds old first total stored)
    (oldcount : ℕ) (hcount : oldcount ≤ total) (hlength : array.length = asize)
    (harray : Holds array (first + oldcount) (total - oldcount) stored) :
  ∃ array', copyDown old old.length asize oldcount (slot old.length (first + oldcount - 1))
      (slot asize (first + oldcount - 1)) array = some array'
    ∧ array'.length = asize ∧ Holds array' first total stored
  := by
  induction oldcount generalizing array with
  | zero =>
    use array, rfl, hlength
    apply harray.mono
    intro j hj hj'
    constructor
    · simpa using hj
    · simp
      omega
  | succ oldcount ih =>
    have hlast : first + (oldcount + 1 : ℕ) - 1 = first + oldcount := by omega
    obtain ⟨hsome, hread⟩ := read_slot hold (i := first + oldcount) (by omega) (by omega)
    obtain ⟨value, hvalue⟩ := Option.isSome_iff_exists.mp hsome
    rw [hlast, copyDown, hread, hvalue, Option.bind_eq_bind, Option.bind_some,
      construct_slot hlength hsize, Option.bind_eq_bind, Option.bind_some, ← slot_pred halloc,
      ← slot_pred hsize]
    apply ih
    · omega
    · rw [List.length_set, hlength]
    · have hstore : Holds (array.set (slot array.length (first + oldcount)) (some value))
          (first + oldcount) (total - oldcount)
          (Function.update stored (first + oldcount) (some value)) := by
        apply harray.store
        · omega
        · omega
        · omega
        · omega
        · intro j _ _ hne
          omega
      have hupdate : Function.update stored (first + oldcount) (some value) = stored := by
        rw [← hvalue, Function.update_eq_self]
      rwa [hupdate] at hstore

end array

/-! ### Operations -/

namespace Window

variable {w : Window T} {array : List (Option T)}

/-- A value is stored for an index of the window that comes about. -/
theorem Stores.store (h : w.Stores array) (hne : w.capacity ≠ 0) (value : T) {i first : ℤ}
    {count : ℕ} (hcount : count ≤ w.capacity) (hfirst : first ≤ i) (hlast : i < first + count)
    (hwindow : ∀ j, first ≤ j → j < first + count → j ≠ i →
      w.first ≤ j ∧ j < w.first + w.count) :
  Stores
    { w with first := first, count := count, stored := Function.update w.stored i (some value) }
    (array.set (slot array.length i) (some value))
  := by
  have hlength := h.length
  constructor
  · rw [List.length_set]
    exact hlength
  · exact hcount
  · intro hzero
    exact absurd hzero hne
  · apply h.holds.store (by omega) value _ hfirst hlast hwindow
    rw [hlength]
    exact hcount

theorem Stores.append (h : w.Stores array) (value : T) :
  ∃ array', (w.cache array).append value = some ((w.append value).cache array')
    ∧ (w.append value).Stores array'
  := by
  rcases eq_or_ne w.capacity 0 with hzero | hne
  · use array
    rw [Window.append, if_pos hzero]
    exact ⟨if_pos hzero, h⟩
  · have hpos : 0 < w.capacity := Nat.pos_of_ne_zero hne
    have hcount := h.count_le
    use array.set (slot array.length (w.first + w.count)) (some value)
    rw [Window.append, if_neg hne]
    constructor
    · dsimp only [QContiguousCache.append, cache]
      simp only [start, hne, ↓reduceIte, modulo_slot hpos, Option.bind_eq_bind, Option.bind_some,
        destroy_construct, construct_slot h.length hpos]
      rcases eq_or_ne w.count w.capacity with hfull | hfree
      · rw [if_pos hfull, if_pos hfull, min_eq_right (by omega), ← hfull]
        rfl
      · rw [if_neg hfree, if_neg hfree, min_eq_left (by omega)]
    · apply h.store hne
      · apply min_le_right
      · split
        · omega
        · omega
      · split
        · omega
        · omega
      · intro j hj hj' hother
        split at hj
        · omega
        · omega

theorem Stores.prepend (h : w.Stores array) (value : T) :
  ∃ array', (w.cache array).prepend value = some ((w.prepend value).cache array')
    ∧ (w.prepend value).Stores array'
  := by
  rcases eq_or_ne w.capacity 0 with hzero | hne
  · use array
    rw [Window.prepend, if_pos hzero]
    exact ⟨if_pos hzero, h⟩
  · have hpos : 0 < w.capacity := Nat.pos_of_ne_zero hne
    have hcount := h.count_le
    have hstart : (if w.start ≠ 0 then w.start - 1 else w.capacity - 1)
        = slot w.capacity (w.first - 1) := by
      rw [slot_pred hpos, start_of_pos hne, ite_not]
      split
      · rfl
      · rfl
    use array.set (slot array.length (w.first - 1)) (some value)
    rw [Window.prepend, if_neg hne]
    constructor
    · dsimp only [QContiguousCache.prepend, cache]
      rw [hstart]
      simp only [start, hne, ↓reduceIte, Option.bind_eq_bind, Option.bind_some, destroy_construct,
        construct_slot h.length hpos]
      rcases eq_or_ne w.count w.capacity with hfull | hfree
      · rw [if_neg (not_not_intro hfull), min_eq_right (by omega), ← hfull]
      · rw [if_pos hfree, min_eq_left (by omega)]
    · apply h.store hne
      · apply min_le_right
      · omega
      · omega
      · intro j hj hj' hother
        omega

/-- A window without indices. -/
def clear (w : Window T) : Window T :=
  { w with first := 0, count := 0 }

theorem stores_clear (hlength : array.length = w.capacity) :
  w.clear.Stores array
  where
  length := hlength
  count_le := Nat.zero_le w.capacity
  valid := fun _ => by simp [Valid, clear, maxSize]
  holds := holds_zero array 0 w.stored

theorem Stores.clear (h : w.Stores array) :
  ∃ array', (w.cache array).clear = some (w.clear.cache array') ∧ w.clear.Stores array'
  := by
  have hlength := h.length
  rcases eq_or_ne w.capacity 0 with hzero | hne
  · have hcount : w.count = 0 := Nat.le_zero.mp (hzero ▸ h.count_le)
    use array
    dsimp only [QContiguousCache.clear, Window.clear, cache]
    constructor
    · rw [hcount]
      simp only [destroyAll, start, hzero, ↓reduceIte, Option.bind_eq_bind, Option.bind_some]
    · exact stores_clear hlength
  · have hpos : 0 < w.capacity := Nat.pos_of_ne_zero hne
    obtain ⟨array', harray', hlength'⟩ :=
      destroyAll_length (slot_lt hpos w.first) w.count hlength
    use array'
    dsimp only [QContiguousCache.clear, Window.clear, cache]
    rw [start_of_pos hne, harray']
    constructor
    · simp [start, slot]
    · exact stores_clear hlength'

theorem Stores.insert (h : w.Stores array) {pos : ℤ} (hpos : 0 ≤ pos) (value : T) :
  ∃ array', (w.cache array).insert pos value = some ((w.insert pos value).cache array')
    ∧ (w.insert pos value).Stores array'
  := by
  have hlength := h.length
  rcases eq_or_ne w.capacity 0 with hzero | hne
  · use array
    rw [Window.insert, if_pos hzero]
    exact ⟨if_pos hzero, h⟩
  · have hsize : 0 < w.capacity := Nat.pos_of_ne_zero hne
    have halloc : (w.cache array).alloc ≠ 0 := hne
    rw [Window.insert, if_neg hne, QContiguousCache.insert, if_neg halloc]
    have hcontains : (w.cache array).containsIndex pos = true
        ↔ w.first ≤ pos ∧ pos < w.first + w.count := by
      rw [containsIndex, Bool.and_eq_true, decide_eq_true_iff, decide_eq_true_iff]
      dsimp only [cache]
      omega
    simp only [hcontains]
    split
    next hin =>
      use array.set (slot array.length pos) (some value)
      constructor
      · dsimp only [cache]
        simp only [indexPlace_slot hsize hpos, Option.bind_eq_bind, Option.bind_some,
          construct_slot hlength hsize, start]
      · exact h.store hne value h.count_le hin.1 hin.2 fun j hj hj' _ => ⟨hj, hj'⟩
    next hout =>
      rw [show (w.cache array).offset = w.first from rfl,
        show (w.cache array).count = w.count from rfl]
      split
      next => exact h.prepend value
      next =>
        split
        next => exact h.append value
        next =>
          obtain ⟨array', hclear, hstores⟩ := h.clear
          have hlength' : array'.length = w.capacity := hstores.length
          use array'.set (slot array'.length pos) (some value)
          constructor
          · rw [hclear]
            dsimp only [cache, Window.clear]
            simp only [indexPlace_slot hsize hpos, Option.bind_eq_bind, Option.bind_some,
              construct_slot hlength' hsize, start, hne, ↓reduceIte]
          · apply hstores.store hne value (Nat.pos_of_ne_zero hne) (le_refl pos)
            · omega
            · intro j hj hj' hother
              omega

theorem Stores.removeFirst (h : w.Stores array) (hcount : 0 < w.count) :
  ∃ array', (w.cache array).removeFirst = some (w.removeFirst.cache array')
    ∧ w.removeFirst.Stores array'
  := by
  have hle := h.count_le
  have hpos : 0 < w.capacity := by omega
  have hne : w.capacity ≠ 0 := by omega
  have hlength := h.length
  use array.set (slot array.length w.first) none
  constructor
  · dsimp only [QContiguousCache.removeFirst, Window.removeFirst, cache]
    simp only [start, hne, ↓reduceIte, destroy_slot hlength hpos, modulo_slot hpos,
      Option.bind_eq_bind, Option.bind_some]
    rfl
  · constructor
    · rw [List.length_set]
      exact hlength
    · exact (Nat.sub_le w.count 1).trans hle
    · intro hzero
      exact absurd hzero hne
    · apply h.holds.clear (by omega) (by omega) (le_refl w.first) (by omega)
      intro j hj hj'
      dsimp only [Window.removeFirst] at hj hj'
      omega

theorem Stores.removeLast (h : w.Stores array) (hcount : 0 < w.count) :
  ∃ array', (w.cache array).removeLast = some (w.removeLast.cache array')
    ∧ w.removeLast.Stores array'
  := by
  have hle := h.count_le
  have hpos : 0 < w.capacity := by omega
  have hne : w.capacity ≠ 0 := by omega
  have hlength := h.length
  use array.set (slot array.length (w.first + (w.count - 1 : ℕ))) none
  constructor
  · dsimp only [QContiguousCache.removeLast, Window.removeLast, cache]
    simp only [start, hne, ↓reduceIte, destroy_slot hlength hpos, modulo_slot hpos,
      Option.bind_eq_bind, Option.bind_some]
  · constructor
    · rw [List.length_set]
      exact hlength
    · exact (Nat.sub_le w.count 1).trans hle
    · intro hzero
      exact absurd hzero hne
    · apply h.holds.clear (by omega) (by omega)
      · omega
      · omega
      · intro j hj hj'
        dsimp only [Window.removeLast] at hj hj'
        omega

/-- The elements that stay are copied, of which there is one only with both capacities. -/
theorem Stores.copyElements (h : w.Stores array) (size : ℕ) :
  ∃ array', (w.cache array).copyElements size (w.setCapacity size).count (w.setCapacity size).start
      = some array' ∧ array'.length = size
    ∧ Holds array' (w.setCapacity size).first (w.setCapacity size).count w.stored
  := by
  have hle := h.count_le
  have hlength := h.length
  rw [QContiguousCache.copyElements]
  split
  next hzero =>
    use List.replicate size none, rfl, List.length_replicate
    rw [hzero]
    apply holds_zero
  next hsome =>
    have hsize : 0 < size := by
      dsimp only [Window.setCapacity] at hsome
      omega
    have hpos : 0 < w.capacity := by
      dsimp only [Window.setCapacity] at hsome
      omega
    have hnew : (w.setCapacity size).start = slot size (w.setCapacity size).first :=
      start_of_pos (w := w.setCapacity size) hsize.ne'
    have hold : (w.cache array).start = slot w.capacity w.first := start_of_pos hpos.ne'
    dsimp only [cache] at hold ⊢
    rw [hnew, hold, modulo_last hsize (Nat.pos_of_ne_zero hsome),
      modulo_last hpos (by dsimp only [Window.setCapacity] at hsome; omega), Option.bind_eq_bind,
      Option.bind_some, Option.bind_some, ← hlength]
    have hlast : w.first + w.count - 1
        = (w.setCapacity size).first + (w.setCapacity size).count - 1 := by
      dsimp only [Window.setCapacity]
      omega
    rw [hlast]
    apply copyDown_holds (by omega) hsize
    · apply min_le_right
    · apply h.holds.mono
      intro j hj hj'
      dsimp only [Window.setCapacity] at hj hj'
      omega
    · apply le_refl
    · exact List.length_replicate
    · rw [Nat.sub_self]
      apply holds_zero

theorem Stores.setCapacity (h : w.Stores array) (hvalid : w.Valid) (size : ℕ) :
  ∃ array', (w.cache array).setCapacity size = some ((w.setCapacity size).cache array')
    ∧ (w.setCapacity size).Stores array'
  := by
  have hle := h.count_le
  obtain ⟨hfirst, hmax⟩ := hvalid
  rcases eq_or_ne size w.capacity with rfl | hne
  · have hsame : w.setCapacity w.capacity = w := by
      rw [Window.setCapacity, min_eq_left hle, add_sub_cancel_right]
    use array
    rw [hsame]
    exact ⟨if_pos rfl, h⟩
  · obtain ⟨array', hcopy, hlength, hholds⟩ := h.copyElements size
    have hstart : startFor (w.setCapacity size).first size = some (w.setCapacity size).start := by
      rw [startFor, start]
      split
      next hzero => rw [if_pos (show (w.setCapacity size).capacity = 0 from hzero)]
      next hsize =>
        rw [if_neg (show (w.setCapacity size).capacity ≠ 0 from hsize)]
        apply indexPlace_slot (Nat.pos_of_ne_zero hsize)
        dsimp only [Window.setCapacity]
        omega
    use array'
    constructor
    · rw [QContiguousCache.setCapacity, if_neg (show size ≠ (w.cache array).alloc from hne)]
      change ((startFor (w.setCapacity size).first size).bind fun start =>
        ((w.cache array).copyElements size (w.setCapacity size).count start).bind fun array =>
          some _) = _
      rw [hstart, Option.bind_some, hcopy, Option.bind_some]
      rfl
    · constructor
      · exact hlength
      · apply min_le_right
      · intro hzero
        dsimp only [Window.setCapacity] at hzero ⊢
        constructor
        · dsimp only
          omega
        · dsimp only
          omega
      · exact hholds

/-- The renumbered first index is the start. -/
theorem normalizeIndexes_first (w : Window T) :
  w.normalizeIndexes.first = w.start
  := by
  rw [Window.normalizeIndexes, start]
  split
  · rfl
  · rfl

theorem Stores.normalizeIndexes (h : w.Stores array) :
  (w.cache array).normalizeIndexes = w.normalizeIndexes.cache array
    ∧ w.normalizeIndexes.Stores array
  := by
  have hfirst := w.normalizeIndexes_first
  have hle := h.count_le
  have hlength := h.length
  rcases eq_or_ne w.capacity 0 with hzero | hne
  · have hstart : w.start = 0 := if_pos hzero
    constructor
    · rw [QContiguousCache.normalizeIndexes, cache, cache, hfirst,
        show w.normalizeIndexes.start = w.start from (if_pos hzero).trans hstart.symm]
      rfl
    · constructor
      · exact hlength
      · exact hle
      · intro _
        rw [Valid, hfirst, hstart]
        dsimp only [Window.normalizeIndexes]
        rw [maxSize]
        omega
      · have hcount : w.normalizeIndexes.count = 0 := Nat.le_zero.mp (hzero ▸ hle)
        rw [hcount]
        apply holds_zero
  · have hpos : 0 < w.capacity := Nat.pos_of_ne_zero hne
    have hstart : w.start = slot w.capacity w.first := start_of_pos hne
    have hdvd := dvd_sub_slot hpos w.first
    rw [← hstart] at hdvd
    constructor
    · have hsame : w.normalizeIndexes.start = w.start := by
        rw [start_of_pos (w := w.normalizeIndexes) hne, hfirst, hstart]
        apply slot_eq hpos (slot_lt hpos w.first)
        rw [sub_self]
        exact ⟨0, rfl⟩
      rw [QContiguousCache.normalizeIndexes, cache, cache, hfirst, hsame]
      rfl
    · constructor
      · exact hlength
      · exact hle
      · intro hzero
        exact absurd hzero hne
      · intro i hi hi'
        rw [hfirst] at hi hi'
        obtain ⟨a, ha, hslot⟩ := h.holds (i - w.start + w.first) (by omega)
          (by dsimp only [Window.normalizeIndexes] at hi'; omega)
        use a
        have hplace : slot array.length i = slot array.length (i - w.start + w.first) := by
          rw [hlength]
          apply slot_eq hpos (slot_lt hpos _)
          have hsum := Int.dvd_sub (dvd_sub_slot hpos (i - w.start + w.first)) hdvd
          convert hsum using 1
          omega
        rw [hplace]
        refine ⟨?_, hslot⟩
        change w.stored (i - w.normalizeIndexes.first + w.first) = some a
        rw [hfirst, ha]

/-! ### Runs -/

variable {operation : Operation T} {operations : List (Operation T)}

/-- What the cache answers about its indices. -/
theorem areIndexesValid_cache (w : Window T) (array : List (Option T)) :
  (w.cache array).areIndexesValid
    = if w.Valid then if w.capacity = 0 then none else some true else some false
  := by
  rw [QContiguousCache.areIndexesValid]
  change (if w.Valid then if w.capacity = 0 then none
    else some (decide (w.first.tmod w.capacity = w.start)) else some false) = _
  split
  next hvalid =>
    split
    next => rfl
    next hne =>
      rw [Int.tmod_eq_emod_of_nonneg hvalid.1, start_of_pos hne,
        slot_cast (Nat.pos_of_ne_zero hne), decide_eq_true rfl]
  next => rfl

/-- One operation: it does what it does to the window. -/
theorem Stores.apply (h : w.Stores array) (hallowed : (w.cache array).Allowed operation) :
  ∃ array', (w.cache array).apply operation = some ((w.apply operation).cache array')
    ∧ (w.apply operation).Stores array'
  := by
  obtain ⟨hasserts, hvalid⟩ := hallowed
  cases operation with
  | append value => exact h.append value
  | prepend value => exact h.prepend value
  | insert pos value => exact h.insert hasserts value
  | removeFirst => exact h.removeFirst hasserts
  | removeLast => exact h.removeLast hasserts
  | setCapacity size =>
    apply h.setCapacity
    by_contra hnot
    have hfalse := hvalid (by rw [areIndexesValid_cache, if_neg hnot])
    exact nomatch hfalse
  | normalizeIndexes =>
    use array
    rw [QContiguousCache.apply, h.normalizeIndexes.1]
    exact ⟨rfl, h.normalizeIndexes.2⟩

/-- Any operations. -/
theorem Stores.run (h : w.Stores array) (hallowed : (w.cache array).AllAllowed operations) :
  ∃ array', (w.cache array).run operations = some ((w.run operations).cache array')
    ∧ (w.run operations).Stores array'
  := by
  induction operations generalizing w array with
  | nil => exact ⟨array, rfl, h⟩
  | cons operation operations ih =>
    obtain ⟨array', happly, hnext⟩ := h.apply hallowed.1
    rw [QContiguousCache.run, happly, Option.bind_some]
    exact ih hnext (hallowed.2 _ happly)

end Window

end QContiguousCache
