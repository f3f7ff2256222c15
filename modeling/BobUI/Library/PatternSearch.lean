import Mathlib.Data.List.Infix
import Mathlib.Logic.Function.Basic

/-!
# Searching for a pattern

The first place of a pattern in a text, and the two ideas that let a search skip places: tables of
distances to the end of the pattern, and sums that roll along the text.
-/

namespace PatternSearch

variable {α κ : Type*} {pattern text : List α} {i : ℕ}

/-! ### Places -/

/-- The pattern stands at a place of the text. -/
def OccursAt (pattern text : List α) (i : ℕ) : Prop :=
  pattern <+: text.drop i

theorem OccursAt.getElem? (h : OccursAt pattern text i) {k : ℕ} (hk : k < pattern.length) :
  text[i + k]? = pattern[k]?
  := by
  obtain ⟨rest, hrest⟩ := h
  rw [← List.getElem?_drop, ← hrest, List.getElem?_append_left hk]

theorem OccursAt.length_le (h : OccursAt pattern text i) (hpattern : pattern ≠ []) :
  i + pattern.length ≤ text.length
  := by
  have hlength : pattern.length ≤ (text.drop i).length := List.IsPrefix.length_le h
  have hpos := List.length_pos_iff.mpr hpattern
  rw [List.length_drop] at hlength
  omega

theorem occursAt_iff :
  OccursAt pattern text i ↔ ∀ k < pattern.length, text[i + k]? = pattern[k]?
  := by
  constructor
  · intro hoccurs k hk
    exact hoccurs.getElem? hk
  · intro hall
    rw [OccursAt, List.prefix_iff_eq_take]
    apply List.ext_getElem?
    intro k
    rcases Nat.lt_or_ge k pattern.length with hk | hk
    · rw [List.getElem?_take_of_lt hk, List.getElem?_drop, hall k hk]
    · rw [List.getElem?_eq_none hk, List.getElem?_eq_none]
      rw [List.length_take]
      omega

/-- The first number from `start` on with a property, `none` if there is none. -/
def IsFirst (p : ℕ → Prop) (start : ℕ) : Option ℕ → Prop
  | none => ∀ j, start ≤ j → ¬p j
  | some i => start ≤ i ∧ p i ∧ ∀ j, start ≤ j → j < i → ¬p j

/-- Numbers without the property may be skipped. -/
theorem IsFirst.skip {p : ℕ → Prop} {start next : ℕ} {result : Option ℕ}
    (hle : start ≤ next) (h : ∀ j, start ≤ j → j < next → ¬p j) (hnext : IsFirst p next result) :
  IsFirst p start result
  := by
  cases result with
  | none =>
    intro j hj
    rcases Nat.lt_or_ge j next with hlt | hge
    · exact h j hj hlt
    · exact hnext j hge
  | some i =>
    obtain ⟨hi, hp, hleast⟩ := hnext
    refine ⟨Nat.le_trans hle hi, hp, ?_⟩
    intro j hj hlt
    rcases Nat.lt_or_ge j next with hbefore | hge
    · exact h j hj hbefore
    · exact hleast j hge hlt

theorem IsFirst.unique {p : ℕ → Prop} {start : ℕ} {result result' : Option ℕ}
    (h : IsFirst p start result) (h' : IsFirst p start result') :
  result = result'
  := by
  cases result with
  | none =>
    cases result' with
    | none => rfl
    | some i' => exact absurd h'.2.1 (h i' h'.1)
  | some i =>
    cases result' with
    | none => exact absurd h.2.1 (h' i h.1)
    | some i' =>
      rcases Nat.lt_trichotomy i i' with hlt | rfl | hgt
      · exact absurd h.2.1 (h'.2.2 i h.1 hlt)
      · rfl
      · exact absurd h'.2.1 (h.2.2 i' h'.1 hgt)

/-! ### Tables of distances -/

/-- No symbol of the pattern with key `k` is nearer to the end than the table says. -/
def Skips (pattern : List α) (key : α → κ) (table : κ → ℕ) : Prop :=
  ∀ k, table k ≤ pattern.length
    ∧ ∀ d < table k, ∀ c, pattern.reverse[d]? = some c → key c ≠ k

/-- A symbol of the text rules out the places that put a nearer symbol of the pattern there. -/
theorem Skips.not_occursAt {key : α → κ} {table : κ → ℕ} (h : Skips pattern key table)
    {last k d : ℕ} {v : α} (hlast : last + 1 = i + pattern.length)
    (hread : text[last - k]? = some v) (hk : k ≤ d) (hd : d < table (key v)) :
  ¬OccursAt pattern text (i + (d - k))
  := by
  intro hoccurs
  obtain ⟨hlength, hskips⟩ := h (key v)
  have hplace : i + (d - k) + (pattern.length - 1 - d) = last - k := by omega
  have hsymbol : pattern.reverse[d]? = some v := by
    rw [List.getElem?_reverse (by omega), ← hoccurs.getElem? (by omega), hplace, hread]
  exact hskips d hd v hsymbol rfl

variable [DecidableEq κ]

/-- Distances to the end, of symbol after symbol. -/
def fill (key : α → κ) : List α → (κ → ℕ) → κ → ℕ
  | [], table => table
  | c :: l, table => fill key l (Function.update table (key c) l.length)

theorem fill_eq_or_lt (key : α → κ) (l : List α) (table : κ → ℕ) (k : κ) :
  fill key l table k = table k ∨ fill key l table k < l.length
  := by
  induction l generalizing table with
  | nil =>
    left
    rfl
  | cons c l ih =>
    rw [fill, List.length_cons]
    rcases ih (Function.update table (key c) l.length) with h | h
    · rw [h, Function.update_apply]
      split
      · right
        exact Nat.lt_succ_self _
      · left
        rfl
    · right
      exact Nat.lt_succ_of_lt h

theorem fill_skips (key : α → κ) (l : List α) (table : κ → ℕ) (k : κ) :
  ∀ d < fill key l table k, ∀ c, l.reverse[d]? = some c → key c ≠ k
  := by
  induction l generalizing table with
  | nil =>
    intro d _ c hc
    cases hc
  | cons a l ih =>
    intro d hd c hc
    rw [List.reverse_cons] at hc
    rcases Nat.lt_or_ge d l.reverse.length with hlt | hge
    · rw [List.getElem?_append_left hlt] at hc
      exact ih _ d hd c hc
    · rw [List.getElem?_append_right hge, List.getElem?_singleton] at hc
      split at hc
      next hzero =>
        cases hc
        rintro rfl
        rw [List.length_reverse] at hge hzero
        rw [fill] at hd
        rcases fill_eq_or_lt key l (Function.update table (key a) l.length) (key a) with h | h
        · rw [h, Function.update_self] at hd
          omega
        · omega
      next => cases hc

/-- The distances of the last `l` symbols, and `l` for the other keys. -/
theorem skips_fill (key : α → κ) {l : ℕ} (h : l ≤ pattern.length) :
  Skips pattern key (fill key (pattern.drop (pattern.length - l)) fun _ => l)
  := by
  intro k
  have hlength : (pattern.drop (pattern.length - l)).length = l := by
    rw [List.length_drop]
    omega
  have hle : fill key (pattern.drop (pattern.length - l)) (fun _ => l) k ≤ l := by
    rcases fill_eq_or_lt key (pattern.drop (pattern.length - l)) (fun _ => l) k with heq | hlt
    · exact Nat.le_of_eq heq
    · omega
  use Nat.le_trans hle h
  intro d hd c hc
  apply fill_skips key (pattern.drop (pattern.length - l)) (fun _ => l) k d hd c
  rw [List.reverse_drop, List.getElem?_take_of_lt (by omega), hc]

/-! ### Rolling sums -/

section Rolling

variable {w : ℕ} (value : α → BitVec w)

/-- A sum with one more symbol. -/
def push (h : BitVec w) (c : α) : BitVec w :=
  (h <<< 1) + value c

/-- The sum of the values of the symbols, each doubled as often as symbols follow. -/
def hash (l : List α) : BitVec w :=
  l.foldl (push value) 0

theorem hash_append_singleton (l : List α) (c : α) :
  hash value (l ++ [c]) = push value (hash value l) c
  := by
  rw [hash, List.foldl_append]
  rfl

theorem foldl_hash (l : List α) (h : BitVec w) :
  l.foldl (push value) h = h <<< l.length + hash value l
  := by
  induction l using List.reverseRecOn with
  | nil => simp [hash]
  | append_singleton l c ih =>
    rw [List.foldl_append, List.foldl_cons, List.foldl_nil, ih, hash_append_singleton, push, push,
      List.length_append, List.length_singleton, BitVec.shiftLeft_add_distrib,
      ← BitVec.shiftLeft_add, BitVec.add_assoc]

/-- The part of the first symbol is its value, doubled as often as symbols follow. -/
theorem hash_cons (c : α) (l : List α) :
  hash value (c :: l) = value c <<< l.length + hash value l
  := by
  rw [hash, List.foldl_cons, foldl_hash, push]
  simp

end Rolling

end PatternSearch
