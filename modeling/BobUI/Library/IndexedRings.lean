import Mathlib.Algebra.Order.Group.Int
import Mathlib.Logic.Function.Basic

/-!
# Rings addressed by indices

An array of which the slot of an index is its remainder by the size.  It holds what was stored for
the indices of a window, as long as this is no longer than the array.
-/

namespace IndexedRings

variable {α : Type*} {size : ℕ} {i j : ℤ}

/-- The slot of an index. -/
def slot (size : ℕ) (i : ℤ) : ℕ :=
  (i % size).toNat

theorem slot_cast (h : 0 < size) (i : ℤ) :
  (slot size i : ℤ) = i % size
  := by
  have hnonneg := Int.emod_nonneg i (by omega : (size : ℤ) ≠ 0)
  rw [slot, Int.toNat_of_nonneg hnonneg]

theorem slot_lt (h : 0 < size) (i : ℤ) :
  slot size i < size
  := by
  have hlt := Int.emod_lt_of_pos i (by omega : (0 : ℤ) < size)
  have hcast := slot_cast h i
  omega

/-- A number below the size that differs from the index by a multiple of it is the slot. -/
theorem slot_eq (h : 0 < size) {k : ℕ} (hk : k < size) (hdvd : (size : ℤ) ∣ i - k) :
  slot size i = k
  := by
  have hmod : i % size = (k : ℤ) % size :=
    Int.emod_eq_emod_iff_emod_sub_eq_zero.mpr (Int.emod_eq_zero_of_dvd hdvd)
  have hcast := slot_cast h i
  rw [hmod, Int.emod_eq_of_lt (by omega) (by omega)] at hcast
  omega

theorem dvd_sub_slot (h : 0 < size) (i : ℤ) :
  (size : ℤ) ∣ i - slot size i
  := by
  rw [slot_cast h]
  exact Int.dvd_self_sub_emod

/-- Slots are counted up with the indices, around the end. -/
theorem slot_add (h : 0 < size) (i : ℤ) (k : ℕ) :
  (slot size i + k) % size = slot size (i + k)
  := by
  symm
  apply slot_eq h (Nat.mod_lt _ h)
  have hplace : (size : ℤ) ∣ ((slot size i + k : ℕ) : ℤ) - ((slot size i + k) % size : ℕ) := by
    rw [Int.natCast_mod]
    exact Int.dvd_self_sub_emod
  have hsum := Int.dvd_add (dvd_sub_slot h i) hplace
  rw [Int.natCast_add] at hsum
  convert hsum using 1
  omega

/-- Slots are counted down with the indices, around the beginning. -/
theorem slot_pred (h : 0 < size) (i : ℤ) :
  slot size (i - 1) = (if slot size i = 0 then size else slot size i) - 1
  := by
  have hlt := slot_lt h i
  have hdvd := dvd_sub_slot h i
  apply slot_eq h
  · split
    · omega
    · omega
  · split
    next hzero =>
      have hsum := Int.dvd_sub hdvd (Int.dvd_refl (size : ℤ))
      convert hsum using 1
      omega
    next hpos =>
      convert hdvd using 1
      omega

/-- Indices that are near each other have slots of their own. -/
theorem slot_ne (h : 0 < size) (hne : i ≠ j) (hup : i < j + size) (hdown : j < i + size) :
  slot size i ≠ slot size j
  := by
  intro heq
  have hdvd := Int.dvd_sub (dvd_sub_slot h i) (dvd_sub_slot h j)
  rw [heq] at hdvd
  have hzero : i - slot size j - (j - slot size j) = 0 := by
    apply Int.eq_zero_of_dvd_of_natAbs_lt_natAbs hdvd
    omega
  omega

/-! ### Windows -/

/-- The array holds what was stored for `count` indices from `first` on. -/
def Holds (array : List (Option α)) (first : ℤ) (count : ℕ) (stored : ℤ → Option α) : Prop :=
  ∀ i, first ≤ i → i < first + count →
    ∃ a, stored i = some a ∧ array[slot array.length i]? = some (some a)

variable {array : List (Option α)} {first first' : ℤ} {count count' : ℕ}
  {stored : ℤ → Option α}

/-- Storing at an index of a window, the other indices of which were there before. -/
theorem Holds.store (h : Holds array first count stored) (hpos : 0 < array.length) (a : α)
    (hcount : count' ≤ array.length) (hfirst : first' ≤ i) (hlast : i < first' + count')
    (hwindow : ∀ j, first' ≤ j → j < first' + count' → j ≠ i →
      first ≤ j ∧ j < first + count) :
  Holds (array.set (slot array.length i) (some a)) first' count' (Function.update stored i (some a))
  := by
  intro j hj hj'
  rw [List.length_set]
  rcases eq_or_ne j i with rfl | hne
  · use a, Function.update_self j (some a) stored
    rw [List.getElem?_set_self (slot_lt hpos j)]
  · obtain ⟨b, hb, hslot⟩ := h j (hwindow j hj hj' hne).1 (hwindow j hj hj' hne).2
    use b
    rw [Function.update_of_ne hne, List.getElem?_set_ne]
    · exact ⟨hb, hslot⟩
    · exact slot_ne hpos hne.symm (by omega) (by omega)

/-- Clearing the slot of an index that is outside of the new window. -/
theorem Holds.clear (h : Holds array first count stored) (hpos : 0 < array.length)
    (hcount : count ≤ array.length) (hi : first ≤ i) (hi' : i < first + count)
    (hwindow : ∀ j, first' ≤ j → j < first' + count' → first ≤ j ∧ j < first + count ∧ j ≠ i) :
  Holds (array.set (slot array.length i) none) first' count' stored
  := by
  intro j hj hj'
  obtain ⟨h1, h2, hne⟩ := hwindow j hj hj'
  rw [List.length_set, List.getElem?_set_ne]
  · exact h j h1 h2
  · exact slot_ne hpos hne.symm (by omega) (by omega)

/-- A part of the window. -/
theorem Holds.mono (h : Holds array first count stored)
    (hwindow : ∀ j, first' ≤ j → j < first' + count' → first ≤ j ∧ j < first + count) :
  Holds array first' count' stored
  := by
  intro j hj hj'
  exact h j (hwindow j hj hj').1 (hwindow j hj hj').2

theorem holds_zero (array : List (Option α)) (first : ℤ) (stored : ℤ → Option α) :
  Holds array first 0 stored
  := by
  intro j hj hj'
  omega

end IndexedRings
