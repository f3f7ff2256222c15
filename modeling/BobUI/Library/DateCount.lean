import Mathlib.Algebra.Order.Group.Int
import Mathlib.Tactic.Linarith

/-!
# Counting days by years and months

Blocks of lengths that differ by at most one, spread evenly, such as years with leap years at
regular intervals: the first day of a block is a floor of an affine function, and so is the block
of a day.  A count of days by years and months has one date for every day, and the dates follow
one another.
-/

/-! ### Evenly spread blocks -/

/-- The first day of the block `n`, where `b` blocks have `a` days. -/
def blockStart (a b c n : ℤ) : ℤ :=
  (a * n + c) / b

/-- The number from which the block of a day and the day in it are read off. -/
def blockCode (b c x : ℤ) : ℤ :=
  b * x + (b - 1 - c)

section Blocks

variable {a b c : ℤ}

theorem blockStart_le_iff (ha : 0 < a) (hb : 0 < b) (n x : ℤ) :
  blockStart a b c n ≤ x ↔ n ≤ blockCode b c x / a
  := by
  unfold blockStart blockCode
  rw [Int.le_ediv_iff_mul_le ha, ← Int.lt_add_one_iff, Int.ediv_lt_iff_lt_mul hb]
  constructor
  · intro h
    linarith
  · intro h
    linarith

theorem lt_blockStart_iff (ha : 0 < a) (hb : 0 < b) (n x : ℤ) :
  x < blockStart a b c n ↔ blockCode b c x / a < n
  := by
  rw [← Int.not_le, ← Int.not_le, blockStart_le_iff ha hb]

/-- The block of a day. -/
theorem blockCode_ediv_eq_iff (ha : 0 < a) (hb : 0 < b) (n x : ℤ) :
  blockCode b c x / a = n ↔ blockStart a b c n ≤ x ∧ x < blockStart a b c (n + 1)
  := by
  rw [blockStart_le_iff ha hb, lt_blockStart_iff ha hb]
  omega

/-- The day in its block. -/
theorem blockCode_emod_ediv (hb : 0 < b) (x : ℤ) :
  blockCode b c x % a / b = x - blockStart a b c (blockCode b c x / a)
  := by
  have hmod := Int.emod_add_mul_ediv (blockCode b c x) a
  generalize blockCode b c x / a = n at hmod ⊢
  have hcode : blockCode b c x % a = b * x + (b - 1 - c) - a * n := by
    unfold blockCode at hmod ⊢
    linarith
  rw [hcode, blockStart]
  have hstart := Int.emod_add_mul_ediv (a * n + c) b
  have hlt := Int.emod_lt_of_pos (a * n + c) hb
  have hnonneg := Int.emod_nonneg (a * n + c) (Int.ne_of_gt hb)
  generalize (a * n + c) / b = s at hstart ⊢
  generalize (a * n + c) % b = r at hstart hlt hnonneg
  have hsplit : b * x + (b - 1 - c) - a * n = (b - 1 - r) + b * (x - s) := by
    rw [Int.mul_sub]
    linarith
  rw [hsplit, Int.add_mul_ediv_left _ _ (Int.ne_of_gt hb),
    Int.ediv_eq_zero_of_lt (by omega) (by omega), Int.zero_add]

end Blocks

/-! ### Years and months -/

/-- A count of days: the first day of each year, and the first day of each month in its year.
The last month ends with the year. -/
structure DateCount where
  year : ℤ → ℤ
  month : ℤ → ℤ
  months : ℤ
  month_zero : month 0 = 0
  months_pos : 0 < months
  month_lt : ∀ m, 0 ≤ m → m + 1 < months → month m < month (m + 1)
  last_lt : ∀ y, year y + month (months - 1) < year (y + 1)

namespace DateCount

variable (D : DateCount)

/-- The days of a month. -/
def length (y m : ℤ) : ℤ :=
  if m + 1 < D.months then D.month (m + 1) - D.month m else D.year (y + 1) - D.year y - D.month m

/-- The day of a date; months and days are counted from zero. -/
def day (y m d : ℤ) : ℤ :=
  D.year y + D.month m + d

/-- The dates of the count. -/
structure Valid (y m d : ℤ) : Prop where
  month_nonneg : 0 ≤ m
  month_lt : m < D.months
  day_nonneg : 0 ≤ d
  day_lt : d < D.length y m

/-- A day is in a month of a year. -/
structure In (x y m : ℤ) : Prop where
  year_le : D.year y ≤ x
  lt_year : x < D.year (y + 1)
  month_nonneg : 0 ≤ m
  month_lt : m < D.months
  month_le : D.year y + D.month m ≤ x
  lt_month : m + 1 < D.months → x < D.year y + D.month (m + 1)

variable {D}

/-- The date of a day in a month. -/
theorem In.valid {x y m : ℤ} (h : D.In x y m) :
  D.Valid y m (x - D.year y - D.month m)
  := by
  have hle := h.month_le
  have hlt := h.lt_year
  refine ⟨h.month_nonneg, h.month_lt, by omega, ?_⟩
  unfold length
  split
  next hm =>
    have hnext := h.lt_month hm
    omega
  next => omega

theorem month_le {m n : ℤ} (hm : 0 ≤ m) (hmn : m ≤ n) (hn : n < D.months) :
  D.month m ≤ D.month n
  := by
  obtain ⟨k, rfl⟩ := Int.le.dest hmn
  induction k with
  | zero => exact Int.le_of_eq (congrArg D.month (Int.add_zero m).symm)
  | succ k ih =>
    have hbefore := ih (by omega) (by omega)
    have hstep := D.month_lt (m + k) (by omega) (by omega)
    rw [show m + ((k + 1 : ℕ) : ℤ) = m + k + 1 by omega]
    omega

theorem year_lt {y z : ℤ} (h : y < z) :
  D.year y < D.year z
  := by
  have hstep : ∀ y, D.year y < D.year (y + 1) := by
    intro y
    have hlast := D.last_lt y
    have hmonth := D.month_le (le_refl 0) (n := D.months - 1) (by
      have hpos := D.months_pos
      omega) (by omega)
    rw [D.month_zero] at hmonth
    omega
  obtain ⟨k, rfl⟩ := Int.le.dest (Int.add_one_le_of_lt h)
  clear h
  induction k with
  | zero => exact (Int.add_zero (y + 1)).symm ▸ hstep y
  | succ k ih =>
    have hnext := hstep (y + 1 + k)
    rw [show y + 1 + ((k + 1 : ℕ) : ℤ) = y + 1 + k + 1 by omega]
    omega

/-- The month of a valid date. -/
theorem Valid.mem {y m d : ℤ} (h : D.Valid y m d) :
  D.In (D.day y m d) y m
  := by
  have hmonth := D.month_le (le_refl 0) h.month_nonneg h.month_lt
  rw [D.month_zero] at hmonth
  have hday := h.day_nonneg
  have hlt := h.day_lt
  unfold length at hlt
  unfold day
  refine ⟨by omega, ?_, h.month_nonneg, h.month_lt, by omega, ?_⟩
  · split at hlt
    next hm =>
      have hlater := D.month_le (m := m + 1) (n := D.months - 1)
        (by have hnonneg := h.month_nonneg; omega) (by omega) (by omega)
      have hlast := D.last_lt y
      omega
    next => omega
  · intro hm
    rw [if_pos hm] at hlt
    omega

/-- A day is in one month of one year. -/
theorem In.unique {x y m z n : ℤ} (h : D.In x y m) (h' : D.In x z n) :
  y = z ∧ m = n
  := by
  have hyear : y = z := by
    rcases Int.lt_trichotomy y z with hlt | heq | hgt
    · have hle : D.year (y + 1) ≤ D.year z := by
        rcases Int.lt_or_eq_of_le (Int.add_one_le_of_lt hlt) with hmore | heq
        · exact Int.le_of_lt (D.year_lt hmore)
        · exact Int.le_of_eq (congrArg D.year heq)
      have hend := h.lt_year
      have hstart := h'.year_le
      omega
    · exact heq
    · have hle : D.year (z + 1) ≤ D.year y := by
        rcases Int.lt_or_eq_of_le (Int.add_one_le_of_lt hgt) with hmore | heq
        · exact Int.le_of_lt (D.year_lt hmore)
        · exact Int.le_of_eq (congrArg D.year heq)
      have hend := h'.lt_year
      have hstart := h.year_le
      omega
  subst hyear
  refine ⟨rfl, ?_⟩
  have hmn := h.month_lt
  have hnn := h'.month_lt
  rcases Int.lt_trichotomy m n with hlt | heq | hgt
  · have hnext := h.lt_month (by omega)
    have hle := D.month_le (m := m + 1) (n := n) (by have hm := h.month_nonneg; omega) (by omega)
      (by omega)
    have hstart := h'.month_le
    omega
  · exact heq
  · have hnext := h'.lt_month (by omega)
    have hle := D.month_le (m := n + 1) (n := m) (by have hn := h'.month_nonneg; omega) (by omega)
      (by omega)
    have hstart := h.month_le
    omega

/-- The first day of the next month. -/
theorem day_next_month {y m : ℤ} (h : m + 1 < D.months) :
  D.day y (m + 1) 0 = D.day y m (D.length y m - 1) + 1
  := by
  unfold day length
  rw [if_pos h]
  omega

/-- The first day of the next year. -/
theorem day_next_year (y : ℤ) :
  D.day (y + 1) 0 0 = D.day y (D.months - 1) (D.length y (D.months - 1) - 1) + 1
  := by
  unfold day length
  rw [if_neg (by omega), D.month_zero]
  omega

end DateCount
