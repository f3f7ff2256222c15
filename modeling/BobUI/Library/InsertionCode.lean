import Mathlib.Data.List.Induction
import Mathlib.Data.Nat.Basic
import Mathlib.Data.Nat.Notation
import Mathlib.Tactic.Common

/-!
# Insertion codes

A list of numbers is built by insertions, the lower numbers first and equal ones from left to right.
An insertion is coded by how many pairs of a number and a place are passed over before it.
-/

namespace InsertionCode

/-- The number and the place that the next insertion starts from, and the list so far. -/
structure State where
  n : ℕ
  i : ℕ
  output : List ℕ
deriving DecidableEq, Repr

namespace State

/-- The number that is inserted after `delta` pairs. -/
def value (s : State) (delta : ℕ) : ℕ :=
  s.n + (s.i + delta) / (s.output.length + 1)

def place (s : State) (delta : ℕ) : ℕ :=
  (s.i + delta) % (s.output.length + 1)

def insert (s : State) (delta : ℕ) : State :=
  ⟨s.value delta, s.place delta + 1, s.output.insertIdx (s.place delta) (s.value delta)⟩

def build (s : State) (deltas : List ℕ) : State :=
  deltas.foldl insert s

/-- The list is built up to the next number and place. -/
structure Sorted (s : State) : Prop where
  le : ∀ c ∈ s.output, c ≤ s.n
  lt : ∀ c ∈ s.output.drop s.i, c < s.n

variable {s s' : State} {delta delta' : ℕ} {deltas deltas' : List ℕ}

theorem insertIdx_append (before after : List ℕ) (c : ℕ) :
  (before ++ after).insertIdx before.length c = before ++ c :: after
  := by
  induction before with
  | nil => rfl
  | cons d before ih =>
    rw [List.cons_append, List.length_cons, List.insertIdx_succ_cons, ih]
    rfl

theorem place_le (s : State) (delta : ℕ) :
  s.place delta ≤ s.output.length
  := Nat.lt_succ_iff.mp (Nat.mod_lt _ (Nat.succ_pos _))

/-- The number is inserted between two parts of the list. -/
theorem output_insert (s : State) (delta : ℕ) :
  (s.insert delta).output
    = s.output.take (s.place delta) ++ s.value delta :: s.output.drop (s.place delta)
  := by
  have hlength : (s.output.take (s.place delta)).length = s.place delta := by
    rw [List.length_take, Nat.min_eq_left (place_le s delta)]
  have hinsert := insertIdx_append (s.output.take (s.place delta))
    (s.output.drop (s.place delta)) (s.value delta)
  rw [List.take_append_drop, hlength] at hinsert
  exact hinsert

theorem length_insert (s : State) (delta : ℕ) :
  (s.insert delta).output.length = s.output.length + 1
  := List.length_insertIdx_of_le_length (place_le s delta) _

theorem length_build (s : State) (deltas : List ℕ) :
  (s.build deltas).output.length = s.output.length + deltas.length
  := by
  induction deltas generalizing s with
  | nil => rfl
  | cons delta deltas ih =>
    rw [build, List.foldl_cons, ← build, ih, length_insert, List.length_cons]
    omega

theorem n_le_value (s : State) (delta : ℕ) :
  s.n ≤ s.value delta
  := Nat.le_add_right _ _

/-- Behind the place of an insertion there are lower numbers only. -/
theorem Sorted.behind (h : s.Sorted) (delta : ℕ) :
  (∀ c ∈ s.output, c ≤ s.value delta) ∧ ∀ c ∈ s.output.drop (s.place delta), c < s.value delta
  := by
  have hvalue := n_le_value s delta
  constructor
  · intro c hc
    exact le_trans (h.le c hc) hvalue
  · intro c hc
    by_cases hsame : (s.i + delta) / (s.output.length + 1) = 0
    · have hplace : s.place delta = s.i + delta := by
        rw [Nat.div_eq_zero_iff_lt (Nat.succ_pos _)] at hsame
        exact Nat.mod_eq_of_lt hsame
      rw [hplace, ← List.drop_drop] at hc
      exact lt_of_lt_of_le (h.lt c (List.mem_of_mem_drop hc)) hvalue
    · have hle := h.le c (List.mem_of_mem_drop hc)
      have hlt := Nat.lt_add_of_pos_right (Nat.pos_of_ne_zero hsame) (n := s.n)
      exact lt_of_le_of_lt hle hlt

theorem Sorted.insert (h : s.Sorted) :
  (s.insert delta).Sorted
  := by
  obtain ⟨hle, hlt⟩ := h.behind delta
  constructor
  · intro c hc
    rw [output_insert, List.mem_append, List.mem_cons] at hc
    rcases hc with hc | rfl | hc
    · exact hle c (List.mem_of_mem_take hc)
    · exact le_refl _
    · exact hle c (List.mem_of_mem_drop hc)
  · intro c hc
    have hlength : (s.output.take (s.place delta) ++ [s.value delta]).length
        = s.place delta + 1 := by
      rw [List.length_append, List.length_take, Nat.min_eq_left (place_le s delta)]
      rfl
    have hplace : (s.insert delta).i = s.place delta + 1 := rfl
    rw [output_insert, List.append_cons, hplace, ← hlength, List.drop_left] at hc
    exact hlt c hc

theorem Sorted.build (h : s.Sorted) (deltas : List ℕ) :
  (s.build deltas).Sorted
  := by
  induction deltas generalizing s with
  | nil => exact h
  | cons delta deltas ih => exact ih h.insert

/-- The last insertion can be read off from the list. -/
theorem insert_cancel {before after before' after' : List ℕ} {c c' : ℕ}
    (h : before ++ c :: after = before' ++ c' :: after')
    (hle : ∀ d ∈ before, d ≤ c) (hlt : ∀ d ∈ after, d < c)
    (hle' : ∀ d ∈ before', d ≤ c') (hlt' : ∀ d ∈ after', d < c') :
  before = before' ∧ c = c' ∧ after = after'
  := by
  have hc : c' ≤ c := by
    have hmem : c' ∈ before ++ c :: after := by
      rw [h]
      exact List.mem_append_right _ List.mem_cons_self
    rw [List.mem_append, List.mem_cons] at hmem
    rcases hmem with hmem | hmem | hmem
    · exact hle c' hmem
    · exact le_of_eq hmem
    · exact le_of_lt (hlt c' hmem)
  have hc' : c ≤ c' := by
    have hmem : c ∈ before' ++ c' :: after' := by
      rw [← h]
      exact List.mem_append_right _ List.mem_cons_self
    rw [List.mem_append, List.mem_cons] at hmem
    rcases hmem with hmem | hmem | hmem
    · exact hle' c hmem
    · exact le_of_eq hmem
    · exact le_of_lt (hlt' c hmem)
  obtain rfl : c = c' := le_antisymm hc' hc
  rcases List.append_eq_append_iff.mp h with ⟨more, rfl, hmore⟩ | ⟨more, rfl, hmore⟩
  · cases more with
    | nil =>
      rw [List.nil_append, List.cons.injEq] at hmore
      exact ⟨(List.append_nil _).symm, rfl, hmore.2⟩
    | cons d more =>
      obtain ⟨-, rfl⟩ := List.cons.inj hmore
      exact absurd (hlt c (List.mem_append_right _ List.mem_cons_self)) (lt_irrefl c)
  · cases more with
    | nil =>
      rw [List.nil_append, List.cons.injEq] at hmore
      exact ⟨List.append_nil _, rfl, hmore.2.symm⟩
    | cons d more =>
      obtain ⟨-, rfl⟩ := List.cons.inj hmore
      exact absurd (hlt' c (List.mem_append_right _ List.mem_cons_self)) (lt_irrefl c)

/-- A list has one code. -/
theorem build_injective (h : s.Sorted) (heq : (s.build deltas).output = (s.build deltas').output) :
  deltas = deltas'
  := by
  induction deltas using List.reverseRecOn generalizing deltas' with
  | nil =>
    have hlength := congrArg List.length heq
    rw [length_build, length_build, List.length_nil] at hlength
    exact (List.length_eq_zero_iff.mp (by omega)).symm
  | append_singleton deltas delta ih =>
    rcases List.eq_nil_or_concat deltas' with rfl | ⟨deltas', delta', rfl⟩
    · have hlength := congrArg List.length heq
      rw [length_build, length_build, List.length_append, List.length_nil] at hlength
      exact absurd hlength (by rw [List.length_singleton]; omega)
    · have hbuild (deltas : List ℕ) (delta : ℕ) :
          s.build (deltas ++ [delta]) = (s.build deltas).insert delta := by
        rw [build, List.foldl_append]
        rfl
      rw [List.concat_eq_append, hbuild, hbuild, output_insert, output_insert] at heq
      obtain ⟨hle, hlt⟩ := (h.build deltas).behind delta
      obtain ⟨hle', hlt'⟩ := (h.build deltas').behind delta'
      obtain ⟨hbefore, hvalue, hafter⟩ := insert_cancel heq
        (fun c hc => hle c (List.mem_of_mem_take hc)) hlt
        (fun c hc => hle' c (List.mem_of_mem_take hc)) hlt'
      have hplace : (s.build deltas).place delta = (s.build deltas').place delta' := by
        have hlength := congrArg List.length hbefore
        rwa [List.length_take, List.length_take, Nat.min_eq_left (place_le _ _),
          Nat.min_eq_left (place_le _ _)] at hlength
      have houtput : (s.build deltas).output = (s.build deltas').output := by
        rw [← List.take_append_drop ((s.build deltas).place delta) (s.build deltas).output,
          hbefore, hafter, List.take_append_drop]
      obtain rfl := ih houtput
      rw [value, value, Nat.add_left_cancel_iff] at hvalue
      have hdiv := Nat.div_add_mod ((s.build deltas).i + delta)
        ((s.build deltas).output.length + 1)
      have hdiv' := Nat.div_add_mod ((s.build deltas).i + delta')
        ((s.build deltas).output.length + 1)
      rw [place, place] at hplace
      rw [hvalue, hplace, hdiv'] at hdiv
      rw [List.concat_eq_append, Nat.add_left_cancel hdiv]

/-- The numbers below the first one that is inserted are kept as they are. -/
theorem filter_build (s : State) (deltas : List ℕ) {m : ℕ} (h : m ≤ s.n) :
  (s.build deltas).output.filter (· < m) = s.output.filter (· < m)
  := by
  induction deltas generalizing s with
  | nil => rfl
  | cons delta deltas ih =>
    have hvalue := le_trans h (n_le_value s delta)
    rw [build, List.foldl_cons, ← build, ih _ hvalue, output_insert, List.filter_append,
      List.filter_cons_of_neg (by simpa using hvalue), ← List.filter_append,
      List.take_append_drop]

/-! ### Passes over the list -/

/-- A pass over the list for the number `m` is between `before` and `rest`, and `delta` pairs are
passed over since the last insertion. -/
structure At (m : ℕ) (before rest : List ℕ) (s : State) (delta : ℕ) : Prop where
  output : s.output = before.filter (· ≤ m) ++ rest.filter (· < m)
  passed : s.i + delta
    = (m - s.n) * (s.output.length + 1) + (before.filter (· ≤ m)).length
  n_le : s.n ≤ m

section Passes

variable {m n c : ℕ} {before rest points : List ℕ}

theorem At.lower (h : s.At m before (c :: rest) delta) (hc : c < m) :
  s.At m (before ++ [c]) rest (delta + 1)
  := by
  have hle : c ≤ m := le_of_lt hc
  have hfilter : (before ++ [c]).filter (· ≤ m) = before.filter (· ≤ m) ++ [c] := by
    rw [List.filter_append, List.filter_cons_of_pos (by simpa using hle), List.filter_nil]
  have houtput := h.output
  have hpassed := h.passed
  constructor
  · rw [houtput, hfilter, List.filter_cons_of_pos (by simpa using hc), List.append_assoc]
    rfl
  · rw [hfilter, List.length_append, List.length_singleton]
    omega
  · exact h.n_le

theorem At.higher (h : s.At m before (c :: rest) delta) (hc : m < c) :
  s.At m (before ++ [c]) rest delta
  := by
  have hfilter : (before ++ [c]).filter (· ≤ m) = before.filter (· ≤ m) := by
    rw [List.filter_append, List.filter_cons_of_neg (by simpa using hc), List.filter_nil,
      List.append_nil]
  have houtput := h.output
  rw [List.filter_cons_of_neg (by simpa using le_of_lt hc)] at houtput
  constructor
  · rw [houtput, hfilter]
  · rw [hfilter]
    exact h.passed
  · exact h.n_le

/-- The number `m` is inserted where the pass is. -/
theorem At.equal (h : s.At m before (m :: rest) delta) :
  (s.insert delta).At m (before ++ [m]) rest 0
    ∧ s.value delta = m
  := by
  have hfilter : (before ++ [m]).filter (· ≤ m) = before.filter (· ≤ m) ++ [m] := by
    rw [List.filter_append, List.filter_cons_of_pos (by simp), List.filter_nil]
  have houtput := h.output
  rw [List.filter_cons_of_neg (by simp)] at houtput
  have hle : (before.filter (· ≤ m)).length < s.output.length + 1 := by
    rw [houtput, List.length_append]
    omega
  have hvalue : s.value delta = m := by
    have hn := h.n_le
    rw [value, h.passed, Nat.mul_comm, Nat.mul_add_div (Nat.succ_pos _),
      Nat.div_eq_of_lt hle]
    omega
  have hplace : s.place delta = (before.filter (· ≤ m)).length := by
    rw [place, h.passed, Nat.mul_comm, Nat.mul_add_mod, Nat.mod_eq_of_lt hle]
  refine ⟨⟨?_, ?_, ?_⟩, hvalue⟩
  · rw [output_insert, hvalue, hplace, houtput, List.take_left, List.drop_left, hfilter,
      List.append_assoc]
    rfl
  · change s.place delta + 1 + 0 = (m - s.value delta) * _ + _
    rw [hvalue, hplace, hfilter, List.length_append, Nat.sub_self, Nat.zero_mul]
    exact (Nat.zero_add _).symm
  · change s.value delta ≤ m
    rw [hvalue]

/-- Behind the list the next number is considered. -/
theorem At.next (h : s.At m points [] delta) :
  s.At (m + 1) [] points (delta + 1)
  := by
  have houtput := h.output
  have hpassed := h.passed
  rw [List.filter_nil, List.append_nil] at houtput
  have hfilter : points.filter (· < m + 1) = points.filter (· ≤ m) := by
    apply List.filter_congr
    intro c hc
    rw [decide_eq_decide]
    exact Nat.lt_succ_iff
  have hn := h.n_le
  constructor
  · rw [houtput, hfilter]
    rfl
  · have hsucc : m + 1 - s.n = m - s.n + 1 := by omega
    rw [← houtput] at hpassed
    rw [hsucc, Nat.succ_mul, ← Nat.add_assoc, hpassed, List.filter_nil, List.length_nil]
    omega
  · omega

/-- Numbers that are not in the list are passed over. -/
theorem At.raise (h : s.At n [] points delta) (hm : n ≤ m)
    (hpoints : ∀ c ∈ points, c < n ∨ m ≤ c) :
  s.At m [] points (delta + (m - n) * (s.output.length + 1))
  := by
  have hpassed := h.passed
  have hn := h.n_le
  have hfilter : points.filter (· < m) = points.filter (· < n) := by
    apply List.filter_congr
    intro c hc
    rw [decide_eq_decide]
    have hcases := hpoints c hc
    omega
  constructor
  · rw [h.output, hfilter]
    rfl
  · have hsplit : m - s.n = n - s.n + (m - n) := by omega
    rw [hsplit, Nat.add_mul, ← Nat.add_assoc, hpassed, List.filter_nil, List.filter_nil]
    simp only [List.length_nil]
    omega
  · omega

end Passes

end State

end InsertionCode
