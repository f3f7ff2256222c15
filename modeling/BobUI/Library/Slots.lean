import Mathlib.Data.List.Perm.Basic
import Mathlib.Data.List.ReduceOption

/-!
# Lists of slots

A slot holds an entry or is unused.  The slots of a table can lie in rows of one length: then
the slot at `i` is the one at `i % m` of the row at `i / m`.  The entries of a list of slots are
its `reduceOption`; storing and removing an entry changes them by that entry.
-/

namespace Slots

variable {α : Type*}

/-! ### Rows -/

variable {rows : List (List α)}

theorem getElem?_flatten {m : ℕ} (hm : 0 < m) (h : ∀ row ∈ rows, row.length = m) (i : ℕ) :
  rows.flatten[i]? = rows[i / m]?.bind (·[i % m]?)
  := by
  induction rows generalizing i with
  | nil => rfl
  | cons row rows ih =>
    have hrow : row.length = m := h row List.mem_cons_self
    rw [List.flatten_cons]
    rcases Nat.lt_or_ge i m with hi | hi
    · rw [List.getElem?_append_left (hrow ▸ hi), Nat.div_eq_of_lt hi, Nat.mod_eq_of_lt hi]
      rfl
    · rw [List.getElem?_append_right (hrow ▸ hi), hrow,
        ih (fun r hr => h r (List.mem_cons_of_mem _ hr)), Nat.div_eq_sub_div hm hi,
        List.getElem?_cons_succ, Nat.mod_eq_sub_mod hi]

theorem flatten_modify {m : ℕ} (hm : 0 < m) (h : ∀ row ∈ rows, row.length = m) (i : ℕ) (a : α) :
  (rows.modify (i / m) (·.set (i % m) a)).flatten = rows.flatten.set i a
  := by
  induction rows generalizing i with
  | nil => rw [List.modify_nil, List.flatten_nil, List.set_nil]
  | cons row rows ih =>
    have hrow : row.length = m := h row List.mem_cons_self
    rcases Nat.lt_or_ge i m with hi | hi
    · rw [Nat.div_eq_of_lt hi, Nat.mod_eq_of_lt hi, List.modify_zero_cons, List.flatten_cons,
        List.flatten_cons, List.set_append_left i a (hrow ▸ hi)]
    · rw [Nat.div_eq_sub_div hm hi, List.modify_succ_cons, List.flatten_cons,
        List.flatten_cons, Nat.mod_eq_sub_mod hi,
        ih (fun r hr => h r (List.mem_cons_of_mem _ hr)),
        List.set_append_right i a (hrow ▸ hi), hrow]

theorem length_flatten {m : ℕ} (h : ∀ row ∈ rows, row.length = m) :
  rows.flatten.length = m * rows.length
  := by
  induction rows with
  | nil => rfl
  | cons row rows ih =>
    rw [List.flatten_cons, List.length_append, h row List.mem_cons_self,
      ih (fun r hr => h r (List.mem_cons_of_mem _ hr)), List.length_cons, Nat.mul_succ,
      Nat.add_comm]

theorem length_of_mem_modify {m : ℕ} (h : ∀ row ∈ rows, row.length = m) (i j : ℕ) (a : α) :
  ∀ row ∈ rows.modify i (·.set j a), row.length = m
  := by
  induction rows generalizing i with
  | nil =>
    intro row hrow
    rw [List.modify_nil] at hrow
    cases hrow
  | cons row rows ih =>
    have hrows := fun r hr => h r (List.mem_cons_of_mem row hr)
    cases i with
    | zero =>
      rw [List.modify_zero_cons, List.forall_mem_cons, List.length_set]
      exact ⟨h row List.mem_cons_self, hrows⟩
    | succ i =>
      rw [List.modify_succ_cons, List.forall_mem_cons]
      exact ⟨h row List.mem_cons_self, ih hrows i⟩

/-! ### Entries -/

variable {slots : List (Option α)} {i : ℕ} {a : α}

theorem mem_entries :
  a ∈ slots.reduceOption ↔ ∃ i : ℕ, slots[i]? = some (some a)
  := by
  rw [List.reduceOption_mem_iff, List.mem_iff_getElem?]

/-- Storing an entry in an unused slot. -/
theorem entries_store (h : slots[i]? = some none) :
  (slots.set i (some a)).reduceOption.Perm (a :: slots.reduceOption)
  := by
  induction slots generalizing i with
  | nil => cases h
  | cons slot slots ih =>
    cases i with
    | zero =>
      cases h
      rw [List.set_cons_zero, List.reduceOption_cons_of_some, List.reduceOption_cons_of_none]
    | succ i =>
      rw [List.set_cons_succ]
      cases slot with
      | none =>
        rw [List.reduceOption_cons_of_none, List.reduceOption_cons_of_none]
        exact ih h
      | some b =>
        rw [List.reduceOption_cons_of_some, List.reduceOption_cons_of_some]
        exact ((ih h).cons b).trans (List.Perm.swap a b _)

/-- Removing an entry from its slot. -/
theorem entries_remove (h : slots[i]? = some (some a)) :
  slots.reduceOption.Perm (a :: (slots.set i none).reduceOption)
  := by
  obtain ⟨hi, ha⟩ := List.getElem?_eq_some_iff.mp h
  have hnone : (slots.set i none)[i]? = some none := by
    rw [List.getElem?_set_self hi]
  have hback : (slots.set i none).set i (some a) = slots := by
    rw [List.set_set, ← ha, List.set_getElem_self]
  have hstore := entries_store (a := a) hnone
  rwa [hback] at hstore

/-- Where there are fewer entries than slots, one is unused. -/
theorem exists_unused (h : slots.reduceOption.length < slots.length) :
  ∃ i : ℕ, i < slots.length ∧ slots[i]? = some none
  := by
  have hnone : none ∈ slots := by
    by_contra hno
    apply Nat.ne_of_lt h
    rw [List.reduceOption_length_eq_iff]
    intro slot hslot
    cases slot with
    | none => exact absurd hslot hno
    | some b => rfl
  obtain ⟨i, hi⟩ := List.mem_iff_getElem?.mp hnone
  use i
  exact ⟨(List.getElem?_eq_some_iff.mp hi).1, hi⟩

end Slots
