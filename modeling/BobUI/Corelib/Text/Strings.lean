import Mathlib.Algebra.Group.Nat.Defs
import Mathlib.Data.List.Basic
import Mathlib.Tactic.Common

/-!
# Byte arrays and strings

`QByteArray` and `QString` as the sequences they hold.
-/

/-- The octets of a byte array. -/
abbrev QByteArray : Type := List UInt8

/-- The UTF-16 code units of a string. -/
abbrev QString : Type := List UInt16

/-! ### Places in a text -/

/-- `indexOf`: the first place of a character from `start` on; `none` is -1. -/
def QString.indexOf (text : QString) (c : UInt16) (start : ℕ) : Option ℕ :=
  ((text.drop start).findIdx? (· == c)).map (start + ·)

/-- `lastIndexOf`: the last place of a character up to `start`. -/
def QString.lastIndexOf (text : QString) (c : UInt16) : ℕ → Option ℕ
  | 0 => if text[0]? = some c then some 0 else none
  | start + 1 =>
    if text[start + 1]? = some c then some (start + 1) else text.lastIndexOf c start

/-- The characters from `start` up to `stop`. -/
def QString.between (text : QString) (start stop : ℕ) : QString :=
  (text.take stop).drop start

namespace QString

variable {c : UInt16} {before text rest after : QString}

theorem indexOf_append (h : c ∉ text) :
  (before ++ (text ++ c :: rest)).indexOf c before.length = some (before.length + text.length)
  := by
  have hfirst : (text ++ c :: rest).findIdx? (· == c) = some text.length := by
    rw [List.findIdx?_append, List.findIdx?_eq_none_iff.mpr, List.findIdx?_cons]
    · simp
    · intro a ha
      have hne : a ≠ c := fun heq => h (heq ▸ ha)
      simp [hne]
  rw [indexOf, List.drop_left, hfirst]
  rfl

theorem le_of_indexOf {i : ℕ} (h : c ∉ text)
    (hi : (before ++ (text ++ after)).indexOf c before.length = some i) :
  before.length + text.length ≤ i
  := by
  rw [indexOf, List.drop_left, List.findIdx?_append, List.findIdx?_eq_none_iff.mpr] at hi
  · rw [Option.none_or, Option.map_map, Option.map_eq_some_iff] at hi
    obtain ⟨k, -, rfl⟩ := hi
    apply Nat.add_le_add_left
    apply Nat.le_add_left
  · intro a ha
    have hne : a ≠ c := fun heq => h (heq ▸ ha)
    simp [hne]

theorem lastIndexOf_eq {text : QString} {start k : ℕ} (hk : text[k]? = some c) (hle : k ≤ start)
    (h : ∀ j, k < j → j ≤ start → text[j]? ≠ some c) :
  text.lastIndexOf c start = some k
  := by
  induction start with
  | zero =>
    obtain rfl : k = 0 := by omega
    rw [lastIndexOf, if_pos hk]
  | succ start ih =>
    rw [lastIndexOf]
    by_cases heq : k = start + 1
    · rw [← heq, if_pos hk]
    · rw [if_neg (h (start + 1) (by omega) (Nat.le_refl _))]
      apply ih (by omega)
      intro j hlt hj
      apply h j hlt (by omega)

theorem lastIndexOf_append (h : c ∉ rest) :
  (before ++ c :: (rest ++ after)).lastIndexOf c (before.length + rest.length)
    = some before.length
  := by
  apply lastIndexOf_eq
  · rw [List.getElem?_append_right (Nat.le_refl _), Nat.sub_self]
    rfl
  · apply Nat.le_add_right
  · intro j hlt hle heq
    rw [List.getElem?_append_right (by omega)] at heq
    obtain ⟨i, hi⟩ : ∃ i, j - before.length = i + 1 := ⟨j - before.length - 1, by omega⟩
    rw [hi, List.getElem?_cons_succ, List.getElem?_append_left (by omega)] at heq
    apply h (List.mem_of_getElem? heq)

@[simp]
theorem between_append :
  (before ++ (text ++ after)).between before.length (before.length + text.length) = text
  := by
  rw [between, List.take_length_add_append, List.take_left, List.drop_left]

end QString
