import BobUI.Corelib.Time.CalendarDays
import BobUI.Corelib.Time.JalaliCalendar
import BobUI.Library.IntArithmetic

/-!
# Leap years in `int`

The leap-year tests of the Islamic Civil and the Jalali calendar multiply the year by the number of
leap years in a cycle.  They follow the rule of the cycle exactly for the years whose products are
integers of 32 bits.
-/

open QRoundingDown QRomanCalendrical Checked
open QCalendar (Unspecified)

/-- `++year` for a year before year 1: there is no year 0. -/
def incrementNegative (year : ℤ) : Checked ℤ :=
  if year < 0 then int (year + 1) else pure year

theorem gives_incrementNegative_bind_iff {year : ℤ} (h : InInt year) {β : Type}
    {f : ℤ → Checked β} {b : β} :
  (incrementNegative year >>= f).Gives b ↔ (f (throughZero year)).Gives b
  := by
  unfold incrementNegative throughZero
  split
  · rw [gives_int_bind_iff, and_iff_right]
    unfold InInt at h ⊢
    omega
  · rw [Checked.pure_bind]

namespace QIslamicCivilCalendar

/-- `isLeapYear`, in `int`. -/
def isLeapYearInt (year : ℤ) : Checked Bool :=
  if year = Unspecified then pure false
  else do
    let year ← incrementNegative year
    let product ← int (year * 11)
    let sum ← int (product + 14)
    pure (qMod 30 sum < 11)

/-- The leap years in a cycle of thirty years. -/
def leapYears : List ℤ :=
  [2, 5, 7, 10, 13, 16, 18, 21, 24, 26, 29]

/-- The place of the year in its cycle is that of a leap year. -/
def LeapRule (year : ℤ) : Prop :=
  throughZero year % 30 ∈ leapYears

instance : DecidablePred LeapRule :=
  fun year => inferInstanceAs (Decidable (throughZero year % 30 ∈ leapYears))

theorem leapRule_iff (year : ℤ) :
  LeapRule year ↔ (throughZero year * 11 + 14) % 30 < 11
  := by
  have hplace : (throughZero year * 11 + 14) % 30 = (throughZero year % 30 * 11 + 14) % 30 := by
    omega
  have hlow : 0 ≤ throughZero year % 30 := Int.emod_nonneg _ (by decide)
  have hhigh : throughZero year % 30 < 30 := Int.emod_lt_of_pos _ (by decide)
  rw [hplace, LeapRule]
  generalize throughZero year % 30 = place at hlow hhigh
  interval_cases place <;> decide

theorem isLeapYearInt_gives_iff {year : ℤ} (hint : InInt year) (hyear : year ≠ Unspecified)
    {b : Bool} :
  (isLeapYearInt year).Gives b
    ↔ (InInt (throughZero year * 11) ∧ InInt (throughZero year * 11 + 14))
      ∧ decide (LeapRule year) = b
  := by
  rw [isLeapYearInt, if_neg hyear, gives_incrementNegative_bind_iff hint, gives_int_bind_iff,
    gives_int_bind_iff, gives_pure_iff, and_assoc]
  simp only [leapRule_iff, qMod_eq (show (0 : ℤ) < 30 by decide)]

end QIslamicCivilCalendar

namespace QJalaliCalendar

/-- `isLeapYear`, in `int`. -/
def isLeapYearInt (year : ℤ) : Checked Bool :=
  if year = Unspecified then pure false
  else do
    let year ← incrementNegative year
    let sum ← int (year + 2346)
    let product ← int (sum * 683)
    pure (qMod 2820 product < 683)

/-- The leap years are 683 of the 2820 years of a cycle, as evenly as they can be. -/
def LeapRule (year : ℤ) : Prop :=
  (throughZero year + 2346) % 2820 * 683 % 2820 < 683

instance : DecidablePred LeapRule :=
  fun year => inferInstanceAs (Decidable ((throughZero year + 2346) % 2820 * 683 % 2820 < 683))

theorem isLeapYearInt_gives_iff {year : ℤ} (hint : InInt year) (hyear : year ≠ Unspecified)
    {b : Bool} :
  (isLeapYearInt year).Gives b
    ↔ (InInt (throughZero year + 2346) ∧ InInt ((throughZero year + 2346) * 683))
      ∧ decide (LeapRule year) = b
  := by
  have hplace : (throughZero year + 2346) % 2820 * 683 % 2820
      = (throughZero year + 2346) * 683 % 2820 := by
    omega
  rw [isLeapYearInt, if_neg hyear, gives_incrementNegative_bind_iff hint, gives_int_bind_iff,
    gives_int_bind_iff, gives_pure_iff, and_assoc]
  simp only [LeapRule, qMod_eq (show (0 : ℤ) < 2820 by decide), hplace]

end QJalaliCalendar

namespace QCalendarBackend

/-- The tests follow the rules of their cycles exactly for the years whose products are in the
range of `int`. -/
theorem isLeapYearInt_gives_leapRule_iff {year : ℤ} (h_int : InInt year)
    (h_year : year ≠ Unspecified) :
  ((QIslamicCivilCalendar.isLeapYearInt year).Gives (decide (QIslamicCivilCalendar.LeapRule year))
      ↔ -195225787 ≤ year ∧ year ≤ 195225784)
    ∧ ((QJalaliCalendar.isLeapYearInt year).Gives (decide (QJalaliCalendar.LeapRule year))
      ↔ -3146539 ≤ year ∧ year ≤ 3141846)
  := by
  rw [QIslamicCivilCalendar.isLeapYearInt_gives_iff h_int h_year,
    QJalaliCalendar.isLeapYearInt_gives_iff h_int h_year, and_iff_left rfl, and_iff_left rfl]
  unfold InInt throughZero
  constructor
  · split
    · omega
    · omega
  · split
    · omega
    · omega

theorem isLeapYearInt_gives_leapRule_1403 :
  (QIslamicCivilCalendar.isLeapYearInt 1403).Gives (decide (QIslamicCivilCalendar.LeapRule 1403))
    ∧ (QJalaliCalendar.isLeapYearInt 1403).Gives (decide (QJalaliCalendar.LeapRule 1403))
  := by
  obtain ⟨h_islamic, h_jalali⟩ := @isLeapYearInt_gives_leapRule_iff 1403 (by decide)
    (by decide)
  exact ⟨h_islamic.mpr (by decide), h_jalali.mpr (by decide)⟩

/-- Leap years whose products leave the range; wrapped around, these make them common years. -/
theorem isLeapYearInt_wraps :
  InInt 195225785 ∧ (195225785 : ℤ) ≠ Unspecified
    ∧ QIslamicCivilCalendar.LeapRule 195225785
    ∧ QIslamicCivilCalendar.isLeapYearInt 195225785 = ⟨false, false⟩
    ∧ InInt 3141855 ∧ (3141855 : ℤ) ≠ Unspecified
    ∧ QJalaliCalendar.LeapRule 3141855
    ∧ QJalaliCalendar.isLeapYearInt 3141855 = ⟨false, false⟩
  := by decide

end QCalendarBackend
