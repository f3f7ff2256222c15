import BobUI.Corelib.Io.DirPathTexts
import Mathlib.Logic.Function.Iterate

/-!
# Dot segments

The path of a remote URL is rewritten as by the algorithm of RFC 3986, section 5.2.4, except where
a dot segment leaves only a slash: that slash is lost with the segment.
-/

namespace Rfc3986

/-- The input and output buffers. -/
structure Buffers where
  input : QString
  output : QString

/-- Remove the last segment and its preceding slash, if any. -/
def removeLast (output : QString) : QString :=
  (output.rdropWhile (· ≠ 0x2f)).dropLast

/-- The initial slash, if any, and the characters up to the next slash. -/
def firstSegment (input : QString) : QString :=
  input.take 1 ++ (input.drop 1).takeWhile (· ≠ 0x2f)

/-- The steps A to E; the prefixes are "../", "./", "/./", "/.", "/../", "/..", "." and "..". -/
def step (b : Buffers) : Buffers :=
  if b.input.take 3 = [0x2e, 0x2e, 0x2f] then { b with input := b.input.drop 3 }
  else if b.input.take 2 = [0x2e, 0x2f] then { b with input := b.input.drop 2 }
  else if b.input.take 3 = [0x2f, 0x2e, 0x2f] then { b with input := 0x2f :: b.input.drop 3 }
  else if b.input = [0x2f, 0x2e] then { b with input := [0x2f] }
  else if b.input.take 4 = [0x2f, 0x2e, 0x2e, 0x2f] then
    ⟨0x2f :: b.input.drop 4, removeLast b.output⟩
  else if b.input = [0x2f, 0x2e, 0x2e] then ⟨[0x2f], removeLast b.output⟩
  else if b.input = [0x2e] ∨ b.input = [0x2e, 0x2e] then { b with input := [] }
  else
    ⟨b.input.drop (firstSegment b.input).length, b.output ++ firstSegment b.input⟩

/-- The buffers after `n` steps. -/
def after (n : ℕ) (b : Buffers) : Buffers :=
  step^[n] b

def removeDotSegments (path : QString) : QString :=
  (after path.length ⟨path, []⟩).output

/-- There is no segment for ".." to remove. -/
def LacksNow (b : Buffers) : Prop :=
  (b.input = [0x2f, 0x2e, 0x2e] ∨ b.input.take 4 = [0x2f, 0x2e, 0x2e, 0x2f]) ∧ b.output = []

def Lacks (b : Buffers) : Prop :=
  ∃ n, LacksNow (after n b)

/-- A dot segment with another segment behind it leaves only a slash. -/
def StraysNow (b : Buffers) : Prop :=
  (b.input.take 3 = [0x2f, 0x2e, 0x2f] ∨ b.input.take 4 = [0x2f, 0x2e, 0x2e, 0x2f])
    ∧ (step b).output = [0x2f]

def Strays (b : Buffers) : Prop :=
  ∃ n, StraysNow (after n b)

def Empties (b : Buffers) : Prop :=
  ∃ n, (after n b).output = []

/-- The slash that is left is not removed later. -/
def Stranded (b : Buffers) : Prop :=
  ∃ n, StraysNow (after n b) ∧ ¬ Empties (step (after n b))

/-! ### Steps on segments -/

section Segments

variable {name tail output : QString}

/-- The kinds of the first segment of an absolute path. -/
theorem prefixes (h : ∀ c ∈ name, c ≠ 0x2f) (htail : tail = [] ∨ tail.head? = some 0x2f) :
  ((0x2f :: (name ++ tail)).take 3 = [0x2f, 0x2e, 0x2f] ↔ name = [0x2e] ∧ tail ≠ [])
    ∧ (0x2f :: (name ++ tail) = [0x2f, 0x2e] ↔ name = [0x2e] ∧ tail = [])
    ∧ ((0x2f :: (name ++ tail)).take 4 = [0x2f, 0x2e, 0x2e, 0x2f]
      ↔ name = [0x2e, 0x2e] ∧ tail ≠ [])
    ∧ (0x2f :: (name ++ tail) = [0x2f, 0x2e, 0x2e] ↔ name = [0x2e, 0x2e] ∧ tail = [])
  := by
  obtain rfl | ⟨rest, rfl⟩ : tail = [] ∨ ∃ rest, tail = 0x2f :: rest := by
    rwa [← List.head?_eq_some_iff]
  · rcases name with _ | ⟨a, _ | ⟨b, _ | ⟨c, name⟩⟩⟩
    · simp
    · simp
    · have hb := h b (by simp)
      simp [hb]
    · have hb := h b (by simp)
      have hc := h c (by simp)
      simp [hb, hc]
  · rcases name with _ | ⟨a, _ | ⟨b, _ | ⟨c, name⟩⟩⟩
    · simp
    · simp
    · have hb := h b (by simp)
      simp [hb]
    · have hb := h b (by simp)
      have hc := h c (by simp)
      simp [hb, hc]

/-- What follows a dot segment becomes the input. -/
def behind (tail : QString) : QString :=
  if tail = [] then [0x2f] else tail

/-- A step takes the first segment from the input. -/
theorem step_segment (h : ∀ c ∈ name, c ≠ 0x2f) (htail : tail = [] ∨ tail.head? = some 0x2f) :
  step ⟨0x2f :: (name ++ tail), output⟩
    = if name = [0x2e] then ⟨behind tail, output⟩
      else if name = [0x2e, 0x2e] then ⟨behind tail, removeLast output⟩
      else ⟨tail, output ++ 0x2f :: name⟩
  := by
  obtain ⟨hb, hb', hc, hc'⟩ := prefixes h htail
  have htail' : tail = [] ∨ ∃ rest, tail = 0x2f :: rest := by
    rwa [← List.head?_eq_some_iff]
  unfold step behind
  dsimp only
  rw [if_neg (by simp), if_neg (by simp)]
  by_cases hdot : name = [0x2e]
  · rw [if_pos hdot]
    rcases htail' with rfl | ⟨rest, rfl⟩
    · rw [if_neg (fun hall => (hb.mp hall).2 rfl), if_pos (hb'.mpr ⟨hdot, rfl⟩), if_pos rfl]
    · rw [if_pos (hb.mpr ⟨hdot, List.cons_ne_nil _ _⟩), if_neg (List.cons_ne_nil _ _), hdot]
      rfl
  · rw [if_neg hdot, if_neg (fun hall => hdot (hb.mp hall).1),
      if_neg (fun hall => hdot (hb'.mp hall).1)]
    by_cases hdots : name = [0x2e, 0x2e]
    · rw [if_pos hdots]
      rcases htail' with rfl | ⟨rest, rfl⟩
      · rw [if_neg (fun hall => (hc.mp hall).2 rfl), if_pos (hc'.mpr ⟨hdots, rfl⟩), if_pos rfl]
      · rw [if_pos (hc.mpr ⟨hdots, List.cons_ne_nil _ _⟩), if_neg (List.cons_ne_nil _ _), hdots]
        rfl
    · have hfirst : firstSegment (0x2f :: (name ++ tail)) = 0x2f :: name := by
        rw [firstSegment, List.drop_succ_cons, List.drop_zero,
          (QDirPrivate.takeWhile_segment h htail).1]
        rfl
      rw [if_neg hdots, if_neg (fun hall => hdots (hc.mp hall).1),
        if_neg (fun hall => hdots (hc'.mp hall).1), if_neg (by simp), hfirst,
        List.length_cons, List.drop_succ_cons, List.drop_left]

end Segments

/-! ### Runs from a later step -/

theorem after_succ (n : ℕ) (b : Buffers) :
  after (n + 1) b = after n (step b)
  := rfl

theorem exists_after (P : Buffers → Prop) (b : Buffers) :
  (∃ n, P (after n b)) ↔ P b ∨ ∃ n, P (after n (step b))
  := by
  constructor
  · rintro ⟨n, h⟩
    cases n with
    | zero => exact Or.inl h
    | succ n => exact Or.inr ⟨n, h⟩
  · rintro (h | ⟨n, h⟩)
    · exact ⟨0, h⟩
    · exact ⟨n + 1, h⟩

theorem lacks_iff (b : Buffers) :
  Lacks b ↔ LacksNow b ∨ Lacks (step b)
  := exists_after LacksNow b

theorem strays_iff (b : Buffers) :
  Strays b ↔ StraysNow b ∨ Strays (step b)
  := exists_after StraysNow b

theorem empties_iff (b : Buffers) :
  Empties b ↔ b.output = [] ∨ Empties (step b)
  := exists_after (fun b => b.output = []) b

theorem stranded_iff (b : Buffers) :
  Stranded b ↔ StraysNow b ∧ ¬ Empties (step b) ∨ Stranded (step b)
  := exists_after (fun b => StraysNow b ∧ ¬ Empties (step b)) b

/-! ### The end of a run -/

theorem step_nil (output : QString) :
  step ⟨[], output⟩ = ⟨[], output⟩
  := by
  simp [step, firstSegment]

theorem after_nil (n : ℕ) (output : QString) :
  after n ⟨[], output⟩ = ⟨[], output⟩
  := Function.iterate_fixed (step_nil output) n

theorem le_length_of_take {α : Type} {l l' : List α} {n : ℕ} (h : l.take n = l') :
  l'.length ≤ l.length
  := by
  rw [← h, List.length_take]
  exact Nat.min_le_right _ _

/-- Each step shortens the input. -/
theorem length_step_lt {b : Buffers} (h : b.input ≠ []) :
  (step b).input.length < b.input.length
  := by
  have hpos := List.length_pos_of_ne_nil h
  unfold step
  split_ifs with ha ha' hb hb' hc hc' hd
  · have hle := le_length_of_take ha
    simp only [List.length_drop, List.length_cons, List.length_nil] at hle ⊢
    omega
  · simp only [List.length_drop]
    omega
  · have hle := le_length_of_take hb
    simp only [List.length_drop, List.length_cons, List.length_nil] at hle ⊢
    omega
  · rw [hb']
    exact Nat.lt_succ_self 1
  · have hle := le_length_of_take hc
    simp only [List.length_drop, List.length_cons, List.length_nil] at hle ⊢
    omega
  · rw [hc']
    exact Nat.lt_add_of_pos_right (Nat.succ_pos 1)
  · exact hpos
  · have hfirst : 0 < (firstSegment b.input).length := by
      rw [firstSegment, List.length_append, List.length_take]
      omega
    simp only [List.length_drop]
    omega

/-- What a run leaves in the output buffer. -/
def result (b : Buffers) : QString :=
  (after b.input.length b).output

theorem length_step_le (b : Buffers) :
  (step b).input.length ≤ b.input.length
  := by
  by_cases h : b.input = []
  · obtain ⟨input, output⟩ := b
    subst h
    rw [step_nil]
  · exact le_of_lt (length_step_lt h)

theorem input_after {b : Buffers} {n : ℕ} (h : b.input.length ≤ n) :
  (after n b).input = []
  := by
  induction n generalizing b with
  | zero => exact List.length_eq_zero_iff.mp (Nat.le_zero.mp h)
  | succ n ih =>
    rw [after_succ]
    apply ih
    by_cases hnil : b.input = []
    · apply le_trans (length_step_le b)
      rw [hnil]
      exact Nat.zero_le n
    · have hlt := length_step_lt hnil
      omega

theorem output_after {b : Buffers} {n : ℕ} (h : b.input.length ≤ n) :
  (after n b).output = result b
  := by
  obtain ⟨more, rfl⟩ := Nat.exists_eq_add_of_le' h
  have hend := input_after (le_refl b.input.length)
  have hadd : after (more + b.input.length) b = after more (after b.input.length b) :=
    Function.iterate_add_apply step more b.input.length b
  rw [hadd, result]
  generalize after b.input.length b = last at hend ⊢
  obtain ⟨input, output⟩ := last
  obtain rfl : input = [] := hend
  rw [after_nil]

theorem result_step (b : Buffers) :
  result (step b) = result b
  := by
  rw [← output_after (Nat.le_succ b.input.length), ← output_after (length_step_le b)]
  rfl

theorem result_nil (output : QString) :
  result ⟨[], output⟩ = output
  := rfl

end Rfc3986

namespace QDirPrivate

open Rfc3986

/-! ### The slashes that are lost -/

/-- What follows from a state of the walk that has lost `k` slashes and ends having lost `k'`. -/
structure Outcome (k : ℕ) (ok : Bool) (b : Buffers) (k' : ℕ) (ok' : Bool) : Prop where
  stranded : 0 < k' ↔ 0 < k ∧ ¬ Empties b ∨ Stranded b
  failed : ok = false → ok' = false
  lacks : Lacks b → ok' = false
  popped : k' = 0 → 0 < k ∨ Strays b → ok' = false
  kept : k = 0 → ¬ Strays b → ok' = false → ok = false ∨ Lacks b

namespace Outcome

variable {k k₁ k₂ k' : ℕ} {ok ok₁ ok' : Bool} {b : Buffers}

/-- A step after which `k₁` slashes have been lost. -/
theorem step (h : Outcome k₁ ok₁ (step b) k' ok')
    (hlost : 0 < k₁ → 0 < k ∨ StraysNow b) (hstrays : StraysNow b → 0 < k₁)
    (hpopped : 0 < k → k₁ = 0 → (Rfc3986.step b).output = [] ∧ ok₁ = false)
    (houtput : 0 < k → b.output ≠ []) (hfailed : ok = false → ok₁ = false)
    (hlacks : LacksNow b → ok₁ = false)
    (hkept : k = 0 → ok₁ = false → ok = false ∨ LacksNow b) :
  Outcome k ok b k' ok'
  := by
  have hempties : Empties (Rfc3986.step b) ↔ (Rfc3986.step b).output = []
      ∨ Empties (Rfc3986.step (Rfc3986.step b)) := empties_iff (Rfc3986.step b)
  constructor
  · rw [h.stranded, stranded_iff b, empties_iff b, not_or]
    constructor
    · rintro (⟨hk, hnot⟩ | hstranded)
      · rcases hlost hk with hbefore | hnow
        · exact Or.inl ⟨hbefore, houtput hbefore, hnot⟩
        · exact Or.inr (Or.inl ⟨hnow, hnot⟩)
      · exact Or.inr (Or.inr hstranded)
    · rintro (⟨hk, -, hnot⟩ | ⟨hnow, hnot⟩ | hstranded)
      · left
        refine ⟨?_, hnot⟩
        apply Nat.pos_of_ne_zero
        intro hzero
        exact hnot (hempties.mpr (Or.inl (hpopped hk hzero).1))
      · exact Or.inl ⟨hstrays hnow, hnot⟩
      · exact Or.inr hstranded
  · intro hok
    exact h.failed (hfailed hok)
  · rw [lacks_iff b]
    rintro (hnow | hlater)
    · exact h.failed (hlacks hnow)
    · exact h.lacks hlater
  · rw [strays_iff b]
    rintro hend (hk | hnow | hlater)
    · rcases Nat.eq_zero_or_pos k₁ with hzero | hpos
      · exact h.failed (hpopped hk hzero).2
      · exact h.popped hend (Or.inl hpos)
    · exact h.popped hend (Or.inl (hstrays hnow))
    · exact h.popped hend (Or.inr hlater)
  · rw [strays_iff b, lacks_iff b, not_or]
    rintro hk ⟨hnow, hlater⟩ hok
    have hzero : k₁ = 0 := by
      by_contra hne
      rcases hlost (Nat.pos_of_ne_zero hne) with hpos | hstray
      · omega
      · exact hnow hstray
    rcases h.kept hzero hlater hok with hfirst | hlast
    · rcases hkept hk hfirst with hbefore | hlack
      · exact Or.inl hbefore
      · exact Or.inr (Or.inl hlack)
    · exact Or.inr (Or.inr hlast)

/-- A dot segment leaves `k₂` slashes and the segments `above` them. -/
theorem leave {above tail : QString} (h : Outcome k₁ ok₁ (Rfc3986.step b) k' ok')
    (hlost : k₁ = if tail ≠ [] ∧ above = [0x2f] then k₂ + 1 else k₂)
    (hafter : (Rfc3986.step b).output = List.replicate k₂ 0x2f ++ above)
    (hstrays : StraysNow b ↔ tail ≠ [] ∧ (Rfc3986.step b).output = [0x2f])
    (hpopped : k = k₂ ∨ k = k₂ + 1 ∧ above = [] ∧ ok₁ = false)
    (houtput : 0 < k → b.output ≠ []) (hfailed : ok = false → ok₁ = false)
    (hlacks : LacksNow b → ok₁ = false)
    (hkept : k = 0 → ok₁ = false → ok = false ∨ LacksNow b) :
  Outcome k ok b k' ok'
  := by
  rw [hafter] at hstrays
  apply h.step
  · intro hpos
    rcases Nat.eq_zero_or_pos k₂ with rfl | hk
    · by_cases hslash : tail ≠ [] ∧ above = [0x2f]
      · right
        rw [hstrays, hslash.2]
        exact ⟨hslash.1, rfl⟩
      · rw [if_neg hslash] at hlost
        omega
    · left
      omega
  · intro hnow
    obtain ⟨htail, hslash⟩ := hstrays.mp hnow
    rcases Nat.eq_zero_or_pos k₂ with rfl | hk
    · rw [List.replicate_zero, List.nil_append] at hslash
      rw [if_pos ⟨htail, hslash⟩] at hlost
      omega
    · split at hlost
      · omega
      · omega
  · intro hk hzero
    have hnone : k₂ = 0 := by
      split at hlost
      · omega
      · omega
    rcases hpopped with heq | ⟨-, habove, hok⟩
    · omega
    · rw [hafter, hnone, habove]
      exact ⟨rfl, hok⟩
  · exact houtput
  · exact hfailed
  · exact hlacks
  · exact hkept

/-- A segment is copied. -/
theorem copy (h : Outcome k ok (Rfc3986.step b) k' ok') (hlacks : ¬ LacksNow b)
    (hstrays : ¬ StraysNow b) (houtput : 0 < k → b.output ≠ []) :
  Outcome k ok b k' ok'
  := by
  apply h.step
  · intro hk
    exact Or.inl hk
  · intro hnow
    exact absurd hnow hstrays
  · intro hk hzero
    omega
  · exact houtput
  · intro hok
    exact hok
  · intro hnow
    exact absurd hnow hlacks
  · intro _ hok
    exact Or.inl hok

end Outcome

/-! ### The walk and the algorithm -/

section Segments

theorem lacksNow_iff {name tail output : QString} (h : ∀ c ∈ name, c ≠ 0x2f)
    (htail : tail = [] ∨ tail.head? = some 0x2f) :
  LacksNow ⟨0x2f :: (name ++ tail), output⟩ ↔ name = [0x2e, 0x2e] ∧ output = []
  := by
  obtain ⟨-, -, hc, hc'⟩ := prefixes h htail
  rw [LacksNow, hc, hc', ← and_or_left]
  have hany : tail = [] ∨ tail ≠ [] := eq_or_ne tail []
  rw [and_iff_left hany]

theorem straysNow_iff {name tail output : QString} (h : ∀ c ∈ name, c ≠ 0x2f)
    (htail : tail = [] ∨ tail.head? = some 0x2f) :
  StraysNow ⟨0x2f :: (name ++ tail), output⟩
    ↔ (name = [0x2e] ∨ name = [0x2e, 0x2e]) ∧ tail ≠ []
      ∧ (step ⟨0x2f :: (name ++ tail), output⟩).output = [0x2f]
  := by
  obtain ⟨hb, -, hc, -⟩ := prefixes h htail
  rw [StraysNow, hb, hc, ← or_and_right, and_assoc]

/-- The slashes before a segment are empty segments. -/
theorem copies (k k' : ℕ) (ok ok' : Bool) (p : ℕ) (rest output : QString)
    (houtput : 0 < k → output ≠ []) :
  result ⟨0x2f :: (List.replicate p 0x2f ++ rest), output⟩
      = result ⟨0x2f :: rest, output ++ List.replicate p 0x2f⟩
    ∧ (Outcome k ok ⟨0x2f :: rest, output ++ List.replicate p 0x2f⟩ k' ok' →
      Outcome k ok ⟨0x2f :: (List.replicate p 0x2f ++ rest), output⟩ k' ok')
  := by
  induction p generalizing output with
  | zero =>
    rw [List.replicate_zero, List.nil_append, List.append_nil]
    exact ⟨rfl, id⟩
  | succ p ih =>
    have hstep : step ⟨0x2f :: ([] ++ 0x2f :: (List.replicate p 0x2f ++ rest)), output⟩
        = ⟨0x2f :: (List.replicate p 0x2f ++ rest), output ++ [0x2f]⟩ := by
      rw [step_segment (by simp) (Or.inr rfl), if_neg (by simp), if_neg (by simp)]
    obtain ⟨hresult, houtcome⟩ := ih (output ++ [0x2f])
      fun _ => List.append_ne_nil_of_right_ne_nil _ (List.cons_ne_nil _ _)
    have happend : output ++ List.replicate (p + 1) 0x2f
        = output ++ [0x2f] ++ List.replicate p 0x2f := by
      rw [List.replicate_succ, List.append_cons]
    rw [List.replicate_succ, List.cons_append, ← List.replicate_succ, happend, ← hresult]
    constructor
    · rw [← hstep, result_step]
      rfl
    · intro h
      have hlacks : ¬ LacksNow ⟨0x2f :: ([] ++ 0x2f :: (List.replicate p 0x2f ++ rest)),
          output⟩ := by
        rw [lacksNow_iff (by simp) (Or.inr rfl)]
        exact fun hall => nomatch hall.1
      have hstrays : ¬ StraysNow ⟨0x2f :: ([] ++ 0x2f :: (List.replicate p 0x2f ++ rest)),
          output⟩ := by
        rw [straysNow_iff (by simp) (Or.inr rfl)]
        rintro ⟨hname | hname, -⟩
        · cases hname
        · cases hname
      apply Outcome.copy _ hlacks hstrays houtput
      rw [hstep]
      exact houtcome h

theorem rdropWhile_append_slash (before above : QString) :
  (before ++ 0x2f :: above).rdropWhile (· ≠ 0x2f) = before ++ 0x2f :: above.rdropWhile (· ≠ 0x2f)
  := by
  induction above using List.reverseRecOn with
  | nil =>
    rw [List.rdropWhile_concat_neg _ _ _ (by decide)]
    rfl
  | append_singleton above c ih =>
    rw [← List.cons_append, ← List.append_assoc]
    by_cases hslash : c = 0x2f
    · rw [List.rdropWhile_concat_neg _ _ _ (by simpa using hslash),
        List.rdropWhile_concat_neg _ _ _ (by simpa using hslash), List.append_assoc,
        List.cons_append]
    · rw [List.rdropWhile_concat_pos _ _ _ (by simpa using hslash),
        List.rdropWhile_concat_pos _ _ _ (by simpa using hslash)]
      exact ih

theorem rdropWhile_cases (above : QString) :
  above.rdropWhile (· ≠ 0x2f) = []
    ∨ ∃ before, above.rdropWhile (· ≠ 0x2f) = before ++ [0x2f]
  := by
  induction above using List.reverseRecOn with
  | nil => exact Or.inl rfl
  | append_singleton above c ih =>
    by_cases hslash : c = 0x2f
    · right
      use above
      rw [List.rdropWhile_concat_neg _ _ _ (by simpa using hslash), hslash]
    · rw [List.rdropWhile_concat_pos _ _ _ (by simpa using hslash)]
      exact ih

/-- The last segment is removed behind the slashes that are lost. -/
theorem removeLast_append (before above : QString) :
  removeLast (before ++ 0x2f :: above) = before ++ removeLast (0x2f :: above)
    ∧ removeLast (0x2f :: above) ++ [0x2f] = 0x2f :: above.rdropWhile (· ≠ 0x2f)
  := by
  have hfirst : (0x2f :: above).rdropWhile (· ≠ 0x2f) = 0x2f :: above.rdropWhile (· ≠ 0x2f) :=
    rdropWhile_append_slash [] above
  unfold removeLast
  rw [rdropWhile_append_slash, hfirst,
    List.dropLast_append_of_ne_nil (List.cons_ne_nil _ _)]
  constructor
  · rfl
  · rcases rdropWhile_cases above with hnil | ⟨rest, hlast⟩
    · rw [hnil]
      rfl
    · rw [hlast, ← List.cons_append, List.dropLast_concat]

theorem removeLast_replicate (k : ℕ) :
  removeLast (List.replicate k 0x2f) = List.replicate (k - 1) 0x2f
  := by
  cases k with
  | zero => rfl
  | succ k =>
    unfold removeLast
    rw [List.replicate_succ', List.rdropWhile_concat_neg _ _ _ (by decide),
      List.dropLast_concat, Nat.add_sub_cancel]

end Segments

/-- Slashes are copied before what follows them. -/
theorem exists_slashes (rest : QString) :
  ∃ p more, rest = List.replicate p 0x2f ++ more ∧ more.head? ≠ some 0x2f
  := by
  induction rest with
  | nil => exact ⟨0, [], rfl, fun h => nomatch h⟩
  | cons c rest ih =>
    by_cases hslash : c = 0x2f
    · obtain ⟨p, more, hrest, hmore⟩ := ih
      refine ⟨p + 1, more, ?_, hmore⟩
      rw [List.replicate_succ, List.cons_append, ← hrest, hslash]
    · exact ⟨0, c :: rest, rfl, fun heq => hslash (Option.some.inj heq)⟩

variable {top base more output above : QString}

theorem slashes_remote {ok : Bool} (p : ℕ) (h : more.head? ≠ some 0x2f) :
  (⟨base, top, List.replicate p 0x2f ++ more, ok⟩ : PathTexts).slashes true
    = ⟨base, top ++ List.replicate p 0x2f, more, ok⟩
  := by
  have hmore : more.takeWhile (· = 0x2f) = [] ∧ more.dropWhile (· = 0x2f) = more := by
    cases more with
    | nil => exact ⟨rfl, rfl⟩
    | cons c more =>
      have hc : ¬ c = 0x2f := fun heq => h (congrArg some heq)
      rw [List.takeWhile_cons_of_neg (by simpa using hc),
        List.dropWhile_cons_of_neg (by simpa using hc)]
      exact ⟨rfl, rfl⟩
  have hall : ∀ c ∈ List.replicate p (0x2f : UInt16), decide (c = 0x2f) = true := by
    intro c hc
    exact decide_eq_true (List.eq_of_mem_replicate hc)
  unfold PathTexts.slashes
  dsimp only
  rw [if_pos rfl, List.takeWhile_append_of_pos hall, List.dropWhile_append_of_pos hall,
    hmore.1, hmore.2, List.append_nil]

/-- The walk is before a segment, and so is the algorithm, which has `k` slashes more. -/
structure Mid (k : ℕ) (above : QString) (t : PathTexts) (b : Buffers) : Prop where
  base : t.base = [0x2f]
  top : above ++ [0x2f] = 0x2f :: t.top
  head : t.rest.head? ≠ some 0x2f
  input : b.input = 0x2f :: t.rest
  output : b.output = List.replicate k 0x2f ++ above

/-- The walk ends with what the algorithm leaves, but for the slashes that are lost. -/
def Ends (k : ℕ) (b : Buffers) (t : PathTexts) : Prop :=
  ∃ k', result b
      = List.replicate k' 0x2f ++ ((t.walk true false).base ++ (t.walk true false).top)
    ∧ Outcome k t.ok b k' (t.walk true false).ok

theorem ends_slashes {k : ℕ} {ok : Bool} (p : ℕ) (hmore : more.head? ≠ some 0x2f)
    (houtput : 0 < k → output ≠ []) (h : Ends k ⟨0x2f :: more, output ++ List.replicate p 0x2f⟩
      ⟨base, top ++ List.replicate p 0x2f, more, ok⟩) :
  Ends k ⟨0x2f :: (List.replicate p 0x2f ++ more), output⟩
    ⟨base, top, List.replicate p 0x2f ++ more, ok⟩
  := by
  have hwalk : (⟨base, top, List.replicate p 0x2f ++ more, ok⟩ : PathTexts).walk true false
      = (⟨base, top ++ List.replicate p 0x2f, more, ok⟩ : PathTexts).walk true false := by
    apply PathTexts.walk_congr
    rw [slashes_remote p hmore]
    exact (slashes_of_head hmore).symm
  obtain ⟨k', hresult, houtcome⟩ := h
  use k'
  rw [hwalk]
  have hcopies (ok' : Bool) := copies k k' ok ok' p more output houtput
  constructor
  · rw [(hcopies true).1, hresult]
  · exact (hcopies _).2 houtcome

theorem ends_slashes_succ {k : ℕ} {ok : Bool} (p : ℕ) (hmore : more.head? ≠ some 0x2f)
    (houtput : 0 < k → output ≠ []) (h : Ends k ⟨0x2f :: more, output ++ List.replicate p 0x2f⟩
      ⟨base, top ++ List.replicate (p + 1) 0x2f, more, ok⟩) :
  Ends k ⟨0x2f :: (List.replicate p 0x2f ++ more), output⟩
    ⟨base, top, 0x2f :: (List.replicate p 0x2f ++ more), ok⟩
  := by
  have hwalk : (⟨base, top, 0x2f :: (List.replicate p 0x2f ++ more), ok⟩ : PathTexts).walk true
      false
      = (⟨base, top ++ List.replicate (p + 1) 0x2f, more, ok⟩ : PathTexts).walk true false := by
    apply PathTexts.walk_congr
    rw [← List.cons_append, ← List.replicate_succ, slashes_remote (p + 1) hmore]
    exact (slashes_of_head hmore).symm
  obtain ⟨k', hresult, houtcome⟩ := h
  use k'
  rw [hwalk]
  have hcopies (ok' : Bool) := copies k k' ok ok' p more output houtput
  constructor
  · rw [(hcopies true).1, hresult]
  · exact (hcopies _).2 houtcome

/-- Behind a dot segment the walk and the algorithm come to the next segment.  A slash is lost
where the segment leaves only that. -/
theorem ends_leave (k : ℕ) (ok : Bool) {tail : QString} (htop : above ++ [0x2f] = 0x2f :: top)
    (htail : tail = [] ∨ tail.head? = some 0x2f)
    (ih : ∀ k above t b, t.rest.length ≤ tail.length → Mid k above t b → Ends k b t) :
  ∃ k₁, (k₁ = if tail ≠ [] ∧ above = [0x2f] then k + 1 else k)
    ∧ Ends k₁ ⟨behind tail, List.replicate k 0x2f ++ above⟩
      ((⟨[0x2f], top, tail, ok⟩ : PathTexts).leave false)
    ∧ ((⟨[0x2f], top, tail, ok⟩ : PathTexts).leave false).ok = ok
  := by
  use if tail ≠ [] ∧ above = [0x2f] then k + 1 else k
  refine ⟨rfl, ?_⟩
  unfold PathTexts.leave
  dsimp only
  rcases htail with rfl | hslash
  · have hkept : ¬ (([] : QString) ≠ [] ∧ top.getLast? = some 0x2f) := fun h => h.1 rfl
    have hlost : ¬ (([] : QString) ≠ [] ∧ above = [0x2f]) := fun h => h.1 rfl
    rw [if_neg hkept, if_neg hlost]
    have hmid (t : PathTexts) (h : t = ⟨[0x2f], top, [], ok⟩) :
        Mid k above t ⟨[0x2f], List.replicate k 0x2f ++ above⟩ := by
      subst h
      exact ⟨rfl, htop, (fun h => nomatch h), rfl, rfl⟩
    split
    next hnil =>
      constructor
      · apply ih _ above _ _ (le_refl _)
        apply hmid
        rw [hnil]
        rfl
      · rfl
    next =>
      constructor
      · apply ih _ above _ _ (le_refl _)
        apply hmid
        rfl
      · rfl
  · obtain ⟨rest, rfl⟩ := List.head?_eq_some_iff.mp hslash
    obtain ⟨p, more, rfl, hmore⟩ := exists_slashes rest
    have hle : more.length ≤ (0x2f :: (List.replicate p 0x2f ++ more)).length := by
      rw [List.length_cons, List.length_append]
      omega
    have hbehind : behind (0x2f :: (List.replicate p 0x2f ++ more))
        = 0x2f :: (List.replicate p 0x2f ++ more) := if_neg (List.cons_ne_nil _ _)
    rw [hbehind]
    -- The root is reached, and a slash is skipped with the segment.
    have hroot (k₁ : ℕ) :
        Ends k₁ ⟨0x2f :: (List.replicate p 0x2f ++ more), List.replicate k₁ 0x2f⟩
          ⟨[0x2f], [], List.replicate p 0x2f ++ more, ok⟩ := by
      apply ends_slashes p hmore
      · intro hpos hnil
        rw [List.replicate_eq_nil_iff] at hnil
        omega
      · apply ih k₁ (List.replicate p 0x2f) _ _ hle
        refine ⟨rfl, ?_, hmore, rfl, rfl⟩
        rw [← List.replicate_succ', List.replicate_succ]
        rfl
    rcases above with _ | ⟨c, above⟩
    · obtain rfl : [] = top := (List.cons.inj htop).2
      have hkept : ¬ (0x2f :: (List.replicate p 0x2f ++ more) ≠ []
          ∧ ([] : QString).getLast? = some 0x2f) := fun h => nomatch h.2
      have hlost : ¬ (0x2f :: (List.replicate p 0x2f ++ more) ≠ [] ∧ ([] : QString) = [0x2f]) :=
        fun h => nomatch h.2
      rw [if_neg hkept, if_neg hlost, if_pos rfl, if_neg Bool.false_ne_true, List.head?_cons,
        if_pos rfl, List.tail_cons, List.append_nil]
      exact ⟨hroot k, rfl⟩
    · obtain rfl : c = 0x2f := (List.cons.inj htop).1
      obtain rfl : above ++ [0x2f] = top := (List.cons.inj htop).2
      have hkept : 0x2f :: (List.replicate p 0x2f ++ more) ≠ []
          ∧ (above ++ [0x2f]).getLast? = some 0x2f :=
        ⟨List.cons_ne_nil _ _, List.getLast?_concat⟩
      rw [if_pos hkept, List.dropLast_concat, List.head?_cons, if_pos rfl, List.tail_cons,
        if_neg Bool.false_ne_true]
      by_cases hnil : above = []
      · have hlost : 0x2f :: (List.replicate p 0x2f ++ more) ≠ [] ∧ 0x2f :: above = [0x2f] :=
          ⟨List.cons_ne_nil _ _, by rw [hnil]⟩
        rw [if_pos hlost, if_pos hnil, hnil, ← List.replicate_succ']
        exact ⟨hroot (k + 1), rfl⟩
      · have hlost : ¬ (0x2f :: (List.replicate p 0x2f ++ more) ≠ []
            ∧ 0x2f :: above = [0x2f]) := fun h => hnil (List.cons.inj h.2).2
        rw [if_neg hlost, if_neg hnil]
        constructor
        · apply ends_slashes_succ p hmore
          · intro _ hempty
            exact List.cons_ne_nil _ _ (List.append_eq_nil_iff.mp hempty).2
          · apply ih k (0x2f :: above ++ List.replicate p 0x2f) _ _ hle
            refine ⟨rfl, ?_, hmore, rfl, ?_⟩
            · dsimp only
              rw [List.append_assoc, ← List.replicate_succ', List.cons_append]
            · dsimp only
              rw [List.append_assoc]
        · rfl

/-- What is left when the last segment is removed. -/
theorem exists_removed (k : ℕ) (htop : above ++ [0x2f] = 0x2f :: top) :
  ∃ k₂ above₂, removeLast (List.replicate k 0x2f ++ above) = List.replicate k₂ 0x2f ++ above₂
    ∧ above₂ ++ [0x2f] = 0x2f :: top.dropLast.rdropWhile (· ≠ 0x2f)
    ∧ (k = k₂ ∨ k = k₂ + 1 ∧ above₂ = [] ∧ above = [])
  := by
  cases above with
  | nil =>
    obtain rfl : [] = top := (List.cons.inj htop).2
    use k - 1, []
    refine ⟨?_, rfl, ?_⟩
    · rw [List.append_nil, List.append_nil, removeLast_replicate]
    · rcases Nat.eq_zero_or_pos k with hzero | hpos
      · left
        rw [hzero]
      · right
        exact ⟨(Nat.sub_add_cancel hpos).symm, rfl, rfl⟩
  | cons c above =>
    obtain rfl : c = 0x2f := (List.cons.inj htop).1
    obtain rfl : above ++ [0x2f] = top := (List.cons.inj htop).2
    obtain ⟨hremoved, hlast⟩ := removeLast_append (List.replicate k 0x2f) above
    use k, removeLast (0x2f :: above)
    refine ⟨hremoved, ?_, Or.inl rfl⟩
    rw [List.dropLast_concat, hlast]

/-- At the end of the path. -/
theorem outcome_nil (k : ℕ) (ok : Bool) (h : output ≠ []) :
  Outcome k ok ⟨[], output⟩ k ok
  := by
  have hempties : ¬ Empties ⟨[], output⟩ := by
    rintro ⟨n, hn⟩
    rw [after_nil] at hn
    exact h hn
  have hstrays : ¬ Strays ⟨[], output⟩ := by
    rintro ⟨n, hn | hn, -⟩
    · rw [after_nil] at hn
      cases hn
    · rw [after_nil] at hn
      cases hn
  have hstranded : ¬ Stranded ⟨[], output⟩ := by
    rintro ⟨n, hn, -⟩
    exact hstrays ⟨n, hn⟩
  constructor
  · rw [or_iff_left hstranded, and_iff_left hempties]
  · exact id
  · rintro ⟨n, -, hn⟩
    rw [after_nil] at hn
    exact absurd hn h
  · rintro rfl (hpos | hnow)
    · cases hpos
    · exact absurd hnow hstrays
  · intro _ _ hok
    exact Or.inl hok

/-- The walk of a remote path ends as the algorithm does. -/
theorem ends_mid {k : ℕ} {t : PathTexts} {b : Buffers} (h : Mid k above t b) :
  Ends k b t
  := by
  generalize hlength : t.rest.length = length
  induction length using Nat.strong_induction_on generalizing k above t b with
  | _ length ih =>
    subst hlength
    obtain ⟨base, top, rest, ok⟩ := t
    obtain ⟨input, output⟩ := b
    obtain ⟨hbase, htop, hhead, hinput, houtput⟩ := h
    dsimp only at hbase htop hhead hinput houtput ih
    subst hbase hinput houtput
    obtain ⟨name, tail, rfl, hname, htail⟩ := exists_segment rest
    have hwalk : (⟨[0x2f], top, name ++ tail, ok⟩ : PathTexts).walk true false
        = ((⟨[0x2f], top, name ++ tail, ok⟩ : PathTexts).segment true false).walk true false := by
      rw [PathTexts.walk_step, slashes_of_head hhead]
    have hsegment : (⟨[0x2f], top, name ++ tail, ok⟩ : PathTexts).segment true false
        = if name = [0x2e] then (⟨[0x2f], top, tail, ok⟩ : PathTexts).leave false
          else if name = [0x2e, 0x2e] then
            (⟨[0x2f], top.dropLast.rdropWhile (· ≠ 0x2f), tail,
              if top = [] then false else ok⟩ : PathTexts).leave false
          else ⟨[0x2f], top ++ name, tail, ok⟩ := by
      obtain ⟨htake, hdrop⟩ := takeWhile_segment hname htail
      unfold PathTexts.segment
      dsimp only
      have hremote : ¬ (top = [] ∧ true = false) := fun h => nomatch h.2
      rw [htake, hdrop, if_neg hremote]
    have hstep : step ⟨0x2f :: (name ++ tail), List.replicate k 0x2f ++ above⟩ = _ :=
      step_segment hname htail
    have hlacks : LacksNow ⟨0x2f :: (name ++ tail), List.replicate k 0x2f ++ above⟩ ↔ _ :=
      lacksNow_iff hname htail
    have hstrays : StraysNow ⟨0x2f :: (name ++ tail), List.replicate k 0x2f ++ above⟩ ↔ _ :=
      straysNow_iff hname htail
    have hstart : 0 < k → List.replicate k (0x2f : UInt16) ++ above ≠ [] := by
      intro hpos hnil
      have hzero := (List.append_eq_nil_iff.mp hnil).1
      rw [List.replicate_eq_nil_iff] at hzero
      omega
    have hshorter (hne : name ≠ []) : tail.length < (name ++ tail).length := by
      have hpos := List.length_pos_of_ne_nil hne
      rw [List.length_append]
      omega
    unfold Ends
    rw [hwalk, hsegment]
    by_cases hdot : name = [0x2e]
    · have hdots : name ≠ [0x2e, 0x2e] := by
        rw [hdot]
        simp
      rw [if_pos hdot]
      rw [if_pos hdot] at hstep
      obtain ⟨k₁, hlost, ⟨k', hresult, houtcome⟩, hok⟩ :=
        ends_leave k ok htop htail fun k above t b hle hmid =>
          ih _ (lt_of_le_of_lt hle (hshorter (by rw [hdot]; simp))) hmid rfl
      use k'
      constructor
      · rw [← hresult, ← hstep, result_step]
      · rw [hok, ← hstep] at houtcome
        apply houtcome.leave hlost
        · rw [hstep]
        · rw [hstrays, and_iff_right (Or.inl hdot)]
        · exact Or.inl rfl
        · exact hstart
        · exact id
        · intro hnow
          exact absurd (hlacks.mp hnow).1 hdots
        · intro _ hfailed
          exact Or.inl hfailed
    · rw [if_neg hdot]
      rw [if_neg hdot] at hstep
      by_cases hdots : name = [0x2e, 0x2e]
      · rw [if_pos hdots]
        rw [if_pos hdots] at hstep
        rw [and_iff_right hdots, List.append_eq_nil_iff, List.replicate_eq_nil_iff] at hlacks
        obtain ⟨k₂, above₂, hremoved, habove, hpopped⟩ := exists_removed k htop
        have hok : (if top = [] then false else ok) = if above = [] then false else ok := by
          have hlength := congrArg List.length htop
          simp only [List.length_append, List.length_cons, List.length_nil] at hlength
          have hboth : top = [] ↔ above = [] := by
            rw [← List.length_eq_zero_iff, ← List.length_eq_zero_iff]
            omega
          simp only [hboth]
        rw [hok]
        rw [hremoved] at hstep
        obtain ⟨k₁, hlost, ⟨k', hresult, houtcome⟩, hok⟩ :=
          ends_leave k₂ (if above = [] then false else ok) habove htail
            fun k above t b hle hmid =>
              ih _ (lt_of_le_of_lt hle (hshorter (by rw [hdots]; simp))) hmid rfl
        use k'
        constructor
        · rw [← hresult, ← hstep, result_step]
        · rw [hok, ← hstep] at houtcome
          apply houtcome.leave hlost
          · rw [hstep]
          · rw [hstrays, and_iff_right (Or.inr hdots)]
          · rcases hpopped with hsame | ⟨hless, habove₂, hnil⟩
            · exact Or.inl hsame
            · exact Or.inr ⟨hless, habove₂, by rw [if_pos hnil]⟩
          · exact hstart
          · intro hfailed
            change ok = false at hfailed
            rw [hfailed, ite_self]
          · intro hnow
            rw [if_pos (hlacks.mp hnow).2]
          · intro hzero hfailed
            by_cases hnil : above = []
            · exact Or.inr (hlacks.mpr ⟨hzero, hnil⟩)
            · rw [if_neg hnil] at hfailed
              exact Or.inl hfailed
      · rw [if_neg hdots]
        rw [if_neg hdots] at hstep
        have hcopy : step ⟨0x2f :: (name ++ tail), List.replicate k 0x2f ++ above⟩
            = ⟨tail, List.replicate k 0x2f ++ (above ++ 0x2f :: name)⟩ := by
          rw [hstep, List.append_assoc]
        have hafter : Ends k ⟨tail, List.replicate k 0x2f ++ (above ++ 0x2f :: name)⟩
            ⟨[0x2f], top ++ name, tail, ok⟩ := by
          rcases htail with rfl | hslash
          · use k
            rw [PathTexts.walk_nil rfl, result_nil]
            constructor
            · dsimp only
              rw [List.append_cons above, htop]
              rfl
            · apply outcome_nil
              simp
          · obtain ⟨rest, rfl⟩ := List.head?_eq_some_iff.mp hslash
            obtain ⟨p, more, rfl, hmore⟩ := exists_slashes rest
            apply ends_slashes_succ p hmore
            · simp
            · have hmid : Mid k (above ++ 0x2f :: name ++ List.replicate p 0x2f)
                  ⟨[0x2f], top ++ name ++ List.replicate (p + 1) 0x2f, more, ok⟩
                  ⟨0x2f :: more, List.replicate k 0x2f ++ (above ++ 0x2f :: name)
                    ++ List.replicate p 0x2f⟩ := by
                refine ⟨rfl, ?_, hmore, rfl, ?_⟩
                · dsimp only
                  rw [List.append_assoc, ← List.replicate_succ', List.append_cons above, htop]
                  simp
                · dsimp only
                  rw [List.append_assoc]
              apply ih more.length _ hmid rfl
              simp only [List.length_append, List.length_cons]
              omega
        obtain ⟨k', hresult, houtcome⟩ := hafter
        use k'
        constructor
        · rw [← hresult, ← hcopy, result_step]
        · rw [← hcopy] at houtcome
          apply houtcome.copy _ _ hstart
          · intro hnow
            exact hdots (hlacks.mp hnow).1
          · intro hnow
            rcases (hstrays.mp hnow).1 with hname | hname
            · exact hdot hname
            · exact hdots hname

/-- The path of a remote URL is rewritten as by the algorithm, with a failure just where there is
no segment to remove, and nothing is written ahead of what is read, if and only if no dot segment
leaves only a slash before another segment, or the slash is removed later and the path fails
anyway. -/
theorem normalize_remote_iff (rest : QString) :
  ((qt_normalizePathSegments (0x2f :: rest) RemotePath).2 = removeDotSegments (0x2f :: rest)
      ∧ ((qt_normalizePathSegments (0x2f :: rest) RemotePath).1 = false
        ↔ Lacks ⟨0x2f :: rest, []⟩)
      ∧ ∀ s, rewritten (0x2f :: rest) RemotePath = some s → ∀ w ∈ s.writes, w.1 ≤ w.2)
    ↔ ¬ Strays ⟨0x2f :: rest, []⟩
      ∨ ¬ Stranded ⟨0x2f :: rest, []⟩ ∧ Lacks ⟨0x2f :: rest, []⟩
  := by
  have h_writes : ∀ s, rewritten (0x2f :: rest) RemotePath = some s →
      ∀ w ∈ s.writes, w.1 ≤ w.2 := by
    intro s h_s
    rcases rewritten_spec (0x2f :: rest) RemotePath with ⟨h_none, -⟩ | ⟨s', h_some, h_holds⟩
    · rw [h_none] at h_s
      cases h_s
    · rw [h_some] at h_s
      obtain rfl := Option.some.inj h_s
      exact h_holds.writes rfl
  have h_root : rootLength (0x2f :: rest) = 1 := rfl
  have h_ends : Ends 0 ⟨0x2f :: rest, []⟩ (entry true (0x2f :: rest)) := by
    obtain ⟨p, more, rfl, h_more⟩ := exists_slashes rest
    apply ends_slashes p h_more
    · intro h_pos
      cases h_pos
    · have h_mid : Mid 0 (List.replicate p 0x2f)
          ⟨[0x2f], [] ++ List.replicate p 0x2f, more, true⟩
          ⟨0x2f :: more, [] ++ List.replicate p 0x2f⟩ := by
        refine ⟨rfl, ?_, h_more, rfl, rfl⟩
        rw [← List.replicate_succ', List.replicate_succ]
        rfl
      exact ends_mid h_mid
  obtain ⟨k, h_result, h_outcome⟩ := h_ends
  have h_walked : walked (0x2f :: rest) RemotePath
      = (entry true (0x2f :: rest)).walk true false := by
    rw [walked, h_root]
    rfl
  have h_remove : removeDotSegments (0x2f :: rest) = result ⟨0x2f :: rest, []⟩ := rfl
  have h_local : ∀ text : QString, ¬ (RemotePath.RemotePath = false ∧ text = []) := by
    intro text h
    cases h.1
  rw [and_iff_left h_writes, qt_normalizePathSegments_eq (List.cons_ne_nil _ _), h_root, h_walked,
    h_remove, h_result]
  dsimp only
  rw [if_neg (h_local _)]
  generalize (entry true (0x2f :: rest)).walk true false = walked at h_outcome ⊢
  have h_text : walked.base ++ walked.top
      = List.replicate k 0x2f ++ (walked.base ++ walked.top) ↔ k = 0 := by
    constructor
    · intro h_eq
      have h_length := congrArg List.length h_eq
      simp only [List.length_append, List.length_replicate] at h_length
      omega
    · rintro rfl
      rfl
  have h_lost : k = 0 ↔ ¬ Stranded ⟨0x2f :: rest, []⟩ := by
    have h_stranded := h_outcome.stranded
    rw [or_iff_right (fun h => nomatch h.1)] at h_stranded
    rw [← h_stranded]
    omega
  have h_ok : (walked.ok || decide (1 = 0)) = false ↔ walked.ok = false := by
    rw [decide_eq_false (by omega), Bool.or_false]
  rw [h_text, h_lost, h_ok]
  constructor
  · rintro ⟨h_kept, h_failed⟩
    by_cases h_strays : Strays ⟨0x2f :: rest, []⟩
    · right
      refine ⟨h_kept, ?_⟩
      rw [← h_failed]
      exact h_outcome.popped (h_lost.mpr h_kept) (Or.inr h_strays)
    · exact Or.inl h_strays
  · rintro (h_strays | ⟨h_kept, h_lacks⟩)
    · constructor
      · rintro ⟨n, h_now, -⟩
        exact h_strays ⟨n, h_now⟩
      · constructor
        · intro h_failed
          rcases h_outcome.kept rfl h_strays h_failed with h_start | h_lacks
          · cases h_start
          · exact h_lacks
        · exact h_outcome.lacks
    · refine ⟨h_kept, fun _ => h_lacks, fun _ => h_outcome.lacks h_lacks⟩

/-- The path "//./a": the empty segment before the dot is lost. -/
theorem normalize_remote_strays :
  qt_normalizePathSegments [0x2f, 0x2f, 0x2e, 0x2f, 0x61] RemotePath = (true, [0x2f, 0x61])
    ∧ removeDotSegments [0x2f, 0x2f, 0x2e, 0x2f, 0x61] = [0x2f, 0x2f, 0x61]
  := ⟨by decide, by decide⟩

end QDirPrivate
