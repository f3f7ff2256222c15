import Mathlib.Data.Nat.Notation
import Mathlib.Logic.Function.Basic
import Mathlib.Tactic.SplitIfs

/-!
# Linear probing

The buckets of a hash table are numbered from 0 to `n - 1` and arranged in a circle.  An entry
is stored at the first unused bucket from its home bucket on, so that no unused bucket lies
between the two (`Probed`).  Where an entry is removed, its bucket becomes a hole, and entries
behind it that have been probed past the hole are moved into it (`Gap`).  No entry is moved over
a bucket that none has been probed past (`Barrier`).
-/

namespace LinearProbing

/-- The bucket behind a bucket. -/
def next (n i : ℕ) : ℕ :=
  if i + 1 = n then 0 else i + 1

/-- The number of steps from a bucket to another. -/
def dist (n i j : ℕ) : ℕ :=
  if i ≤ j then j - i else j + n - i

variable {n i j : ℕ}

theorem next_lt_size (h : i < n) :
  next n i < n
  := by
  unfold next
  split_ifs <;> omega

theorem dist_lt (hi : i < n) (hj : j < n) :
  dist n i j < n
  := by
  unfold dist
  split_ifs with h
  · exact Nat.lt_of_le_of_lt (Nat.sub_le j i) hj
  · omega

theorem dist_eq_zero (hi : i < n) :
  dist n i j = 0 ↔ i = j
  := by
  unfold dist
  split_ifs <;> omega

@[simp]
theorem dist_self (n i : ℕ) :
  dist n i i = 0
  := by
  simp [dist]

theorem dist_inj {p : ℕ} (hp : p < n) (hi : i < n) (hj : j < n) (h : dist n p i = dist n p j) :
  i = j
  := by
  unfold dist at h
  split_ifs at h <;> omega

theorem dist_next (hi : i < n) (hj : j < n) (h : i ≠ j) :
  dist n i j = dist n (next n i) j + 1
  := by
  unfold dist next
  split_ifs <;> omega

theorem dist_next_right (hi : i < n) (h : next n j ≠ i) :
  dist n i (next n j) = dist n i j + 1
  := by
  unfold dist next at *
  split_ifs at * <;> omega

theorem next_ne_self (h : 1 < n) (i : ℕ) :
  next n i ≠ i
  := by
  unfold next
  split_ifs <;> omega

/-- A bucket that is passed behind another one is passed on the whole way, too. -/
theorem dist_lt_of_behind {p h i j : ℕ} (hp : p < n) (hh : h < n) (hi : i < n) (hj : j < n)
    (hpassed : dist n p h < dist n p i) (hle : dist n h j ≤ dist n h i) (hne : i ≠ j) :
  dist n p j < dist n p i
  := by
  unfold dist at *
  split_ifs at * <;> omega

variable {α : Type*} {home : α → ℕ} {f : ℕ → Option α}

/-- No unused bucket lies between the home bucket of an entry and its bucket. -/
def Probed (n : ℕ) (home : α → ℕ) (f : ℕ → Option α) : Prop :=
  ∀ i < n, ∀ a, f i = some a →
    ∀ x < n, dist n (home a) x < dist n (home a) i → (f x).isSome = true

/-- A hole has been made at `h`, and the buckets behind it up to `j`, which are in use, have
been looked at: no entry but those from `j` on may have been probed past the hole.  A second
unused bucket `u` lies ahead. -/
structure Gap (n : ℕ) (home : α → ℕ) (f : ℕ → Option α) (h j u : ℕ) : Prop where
  hole_lt : h < n
  next_lt : j < n
  unused_lt : u < n
  hole : f h = none
  unused : f u = none
  hole_ne : h ≠ u
  next_ne : j ≠ h
  ahead : dist n h j ≤ dist n h u
  probed : ∀ i < n, ∀ a, f i = some a → ∀ x < n, dist n (home a) x < dist n (home a) i →
    (f x).isSome = true ∨ x = h ∧ dist n h j ≤ dist n h i

/-- An entry is stored at the first unused bucket from its home bucket on. -/
theorem Probed.store (h : Probed n home f) {b : ℕ} {a : α}
    (hfirst : ∀ x < n, dist n (home a) x < dist n (home a) b → (f x).isSome = true) :
  Probed n home (Function.update f b (some a))
  := by
  intro j hjn c hj x hx hbetween
  by_cases hxb : x = b
  · rw [hxb, Function.update_self]
    rfl
  · rw [Function.update_of_ne hxb]
    by_cases hjb : j = b
    · rw [hjb, Function.update_self] at hj
      cases hj
      exact hfirst x hx (hjb ▸ hbetween)
    · rw [Function.update_of_ne hjb] at hj
      exact h j hjn c hj x hx hbetween

/-- A hole that is made by removing an entry. -/
theorem Probed.gap (h : Probed n home f) {b u : ℕ} (hb : b < n) (hu : u < n)
    (hunused : f u = none) (hne : b ≠ u) :
  Gap n home (Function.update f b none) b (next n b) u
  := by
  have hnext : next n b ≠ b := next_ne_self (by omega) b
  have hone : dist n b (next n b) = 1 := by
    rw [dist_next_right hb hnext, dist_self]
  have hfar : ∀ i, i ≠ b → dist n b (next n b) ≤ dist n b i := by
    intro i hi
    rw [hone, Nat.one_le_iff_ne_zero, Ne, dist_eq_zero hb]
    exact hi.symm
  refine ⟨hb, next_lt_size hb, hu, Function.update_self .., ?_, hne, hnext, hfar u hne.symm, ?_⟩
  · rw [Function.update_of_ne hne.symm]
    exact hunused
  · intro i hi a ha x hx hbetween
    have hib : i ≠ b := by
      rintro rfl
      rw [Function.update_self] at ha
      cases ha
    rw [Function.update_of_ne hib] at ha
    by_cases hxb : x = b
    · exact .inr ⟨hxb, hfar i hib⟩
    · rw [Function.update_of_ne hxb]
      exact .inl (h i hi a ha x hx hbetween)

/-- Where the bucket ahead is unused, no entry has been probed past the hole. -/
theorem Gap.closed {h j u : ℕ} (g : Gap n home f h j u) (hhome : ∀ a, home a < n)
    (hj : f j = none) :
  Probed n home f
  := by
  intro i hi a ha x hx hbetween
  rcases g.probed i hi a ha x hx hbetween with hsome | ⟨rfl, hle⟩
  · exact hsome
  · exfalso
    have hij : i ≠ j := by
      rintro rfl
      rw [hj] at ha
      cases ha
    -- The bucket `j` lies between the hole and the entry, and is in use then.
    have hmid := dist_lt_of_behind (hhome a) hx hi g.next_lt hbetween hle hij
    rcases g.probed i hi a ha j g.next_lt hmid with hsome | ⟨heq, -⟩
    · rw [hj] at hsome
      cases hsome
    · exact g.next_ne heq

theorem Gap.used_ne {h j u : ℕ} (g : Gap n home f h j u) {a : α} (ha : f j = some a) :
  j ≠ u
  := by
  rintro rfl
  rw [g.unused] at ha
  cases ha

/-- The walk comes to the second unused bucket before it is back at the hole. -/
theorem Gap.next_ne_hole {h j u : ℕ} (g : Gap n home f h j u) (hju : j ≠ u) :
  next n j ≠ h
  := by
  have hn := g.hole_lt
  have hjn := g.next_lt
  have hun := g.unused_lt
  have hahead := g.ahead
  have hne := g.hole_ne
  unfold dist at hahead
  unfold next
  split_ifs at * <;> omega

/-- The walk has come closer to the second unused bucket. -/
theorem Gap.ahead_next {h j u : ℕ} (g : Gap n home f h j u) (hju : j ≠ u) :
  dist n h (next n j) ≤ dist n h u
  := by
  rw [dist_next_right g.hole_lt (g.next_ne_hole hju)]
  apply Nat.lt_of_le_of_ne g.ahead
  intro heq
  apply hju
  have hn := g.hole_lt
  have hjn := g.next_lt
  have hun := g.unused_lt
  unfold dist at heq
  split_ifs at * <;> omega

/-- An entry that has not been probed past the hole stays. -/
theorem Gap.stay {h j u : ℕ} (g : Gap n home f h j u) {a : α} (ha : f j = some a)
    (hstay : dist n (home a) j ≤ dist n (home a) h) :
  Gap n home f h (next n j) u
  := by
  have hju := g.used_ne ha
  refine ⟨g.hole_lt, next_lt_size g.next_lt, g.unused_lt, g.hole, g.unused, g.hole_ne,
    g.next_ne_hole hju, g.ahead_next hju, ?_⟩
  intro i hi b hb x hx hbetween
  refine (g.probed i hi b hb x hx hbetween).imp_right fun ⟨hxh, hle⟩ => ⟨hxh, ?_⟩
  have hij : i ≠ j := by
    rintro rfl
    rw [ha] at hb
    cases hb
    rw [hxh] at hbetween
    exact Nat.not_lt_of_le hstay hbetween
  rw [dist_next_right g.hole_lt (g.next_ne_hole hju)]
  apply Nat.lt_of_le_of_ne hle
  intro heq
  apply hij
  have hn := g.hole_lt
  have hjn := g.next_lt
  unfold dist at heq
  split_ifs at * <;> omega

/-- An entry that has been probed past the hole is moved into it, and leaves a hole. -/
theorem Gap.move {h j u : ℕ} (g : Gap n home f h j u) {a : α} (ha : f j = some a)
    (hmove : dist n (home a) h < dist n (home a) j) :
  Gap n home (Function.update (Function.update f j none) h (some a)) j (next n j) u
  := by
  have hju := g.used_ne ha
  have hne := g.next_ne
  have hjn := g.next_lt
  have hnext : next n j ≠ j := next_ne_self (by have hn := g.hole_lt; omega) j
  have hfar : ∀ i, i ≠ j → dist n j (next n j) ≤ dist n j i := by
    intro i hi
    rw [dist_next_right hjn hnext, dist_self, Nat.one_le_iff_ne_zero, Ne,
      dist_eq_zero hjn]
    exact hi.symm
  refine ⟨hjn, next_lt_size hjn, g.unused_lt, ?_, ?_, hju, hnext, hfar u hju.symm, ?_⟩
  · rw [Function.update_of_ne hne, Function.update_self]
  · rw [Function.update_of_ne g.hole_ne.symm, Function.update_of_ne hju.symm]
    exact g.unused
  · intro i hi b hb x hx hbetween
    by_cases hxh : x = h
    · left
      rw [hxh, Function.update_self]
      rfl
    · rw [Function.update_of_ne hxh]
      by_cases hxj : x = j
      · right
        refine ⟨hxj, hfar i ?_⟩
        rintro rfl
        rw [Function.update_of_ne hne, Function.update_self] at hb
        cases hb
      · left
        rw [Function.update_of_ne hxj]
        by_cases hih : i = h
        · rw [hih, Function.update_self] at hb
          cases hb
          rw [hih] at hbetween
          exact (g.probed j hjn a ha x hx (Nat.lt_trans hbetween hmove)).resolve_right
            fun h => hxh h.1
        · have hij : i ≠ j := by
            rintro rfl
            rw [Function.update_of_ne hih, Function.update_self] at hb
            cases hb
          rw [Function.update_of_ne hih, Function.update_of_ne hij] at hb
          exact (g.probed i hi b hb x hx hbetween).resolve_right fun h => hxh h.1

/-! ### Buckets that no entry has been probed past -/

/-- No entry has been probed past a bucket. -/
def Barrier (n : ℕ) (home : α → ℕ) (f : ℕ → Option α) (g : ℕ) : Prop :=
  ∀ x < n, ∀ a, f x = some a → dist n (home a) x ≤ dist n (home a) g

theorem Probed.barrier (h : Probed n home f) {g : ℕ} (hg : g < n) (hnone : f g = none) :
  Barrier n home f g
  := by
  intro x hx a ha
  apply Nat.le_of_not_lt
  intro hbetween
  have hsome := h x hx a ha g hg hbetween
  rw [hnone] at hsome
  cases hsome

/-- An entry that is moved back into a hole changes nothing for the buckets behind both. -/
theorem barrier_move {h j g : ℕ} (hhome : ∀ a, home a < n) (hhj : h < j) (hj : j < n)
    (hjg : j ≤ g) (hg : g < n) (hhole : f h = none) {a : α} (ha : f j = some a)
    (hmove : dist n (home a) h < dist n (home a) j) :
  Barrier n home (Function.update (Function.update f j none) h (some a)) g ↔ Barrier n home f g
  := by
  have hsame : dist n (home a) h ≤ dist n (home a) g ↔ dist n (home a) j ≤ dist n (home a) g := by
    have ha := hhome a
    unfold dist at *
    split_ifs at * <;> omega
  constructor
  · intro hbarrier x hx b hb
    by_cases hxj : x = j
    · rw [hxj, ha] at hb
      cases hb
      rw [hxj, ← hsame]
      apply hbarrier h (Nat.lt_trans hhj hj)
      rw [Function.update_self]
    · have hxh : x ≠ h := by
        rintro rfl
        rw [hhole] at hb
        cases hb
      apply hbarrier x hx
      rw [Function.update_of_ne hxh, Function.update_of_ne hxj]
      exact hb
  · intro hbarrier x hx b hb
    by_cases hxh : x = h
    · rw [hxh, Function.update_self] at hb
      cases hb
      rw [hxh, hsame]
      exact hbarrier j hj a ha
    · rw [Function.update_of_ne hxh] at hb
      by_cases hxj : x = j
      · rw [hxj, Function.update_self] at hb
        cases hb
      · rw [Function.update_of_ne hxj] at hb
        exact hbarrier x hx b hb

/-- Where an entry has been probed past the hole, the buckets from the hole to the entry are no
barriers. -/
theorem Barrier.le_of_move {h j g : ℕ} (hbarrier : Barrier n home f g)
    (hhome : ∀ a, home a < n) (hj : j < n) (hhg : h ≤ g) {a : α}
    (ha : f j = some a) (hmove : dist n (home a) h < dist n (home a) j) (hhj : h < j) :
  j ≤ g
  := by
  have hle := hbarrier j hj a ha
  have ha := hhome a
  unfold dist at *
  split_ifs at * <;> omega

/-- The buckets from the hole to the last one have been looked at: if one of them is a barrier,
the hole is one. -/
theorem Gap.barrier_hole {h g u : ℕ} (gap : Gap n home f h 0 u) (hhome : ∀ a, home a < n)
    (hhg : h ≤ g) (hg : g < n) (hbarrier : Barrier n home f g) :
  Barrier n home f h
  := by
  intro x hx a ha
  apply Nat.le_of_not_lt
  intro hbetween
  have hle := hbarrier x hx a ha
  rcases gap.probed x hx a ha h gap.hole_lt hbetween with hsome | ⟨-, hfar⟩
  · rw [gap.hole] at hsome
    cases hsome
  · have hxh : x ≠ h := by
      rintro rfl
      rw [gap.hole] at ha
      cases ha
    have ha := hhome a
    have hne := gap.next_ne
    unfold dist at *
    split_ifs at * <;> omega

end LinearProbing
