import BobUI.Corelib.Time.GregorianWeekdays

/-!
# Years that share their weekdays

`yearSharingWeekDays` gives a year from 1970 to 2400 with the weekdays of the year of a date.
-/

open QRoundingDown QRomanCalendrical QCalendarBackend Checked
open QCalendar (YearMonthDay)

/-- A valid date is a Julian day number from `minJd` to `maxJd`. -/
structure QDate where
  jd : ℤ
  minJd_le : -784350574879 ≤ jd
  le_maxJd : jd ≤ 784354017364

namespace QDate

open QGregorianCalendar

/-- The parts of the date in the Gregorian calendar. -/
def parts (date : QDate) : YearMonthDay :=
  partsFromJulian date.jd

theorem month_day (date : QDate) :
  date.parts.year ≠ 0 ∧ 1 ≤ date.parts.month ∧ date.parts.month ≤ 12
    ∧ 1 ≤ date.parts.day ∧ date.parts.day ≤ 31
  := by
  obtain ⟨hvalid, -⟩ := counts.dateToJulianDay_julianDayToDate date.jd
  obtain ⟨hyear, hfirst, hlast⟩ := counts.month_of_valid hvalid
  obtain ⟨hday, hle⟩ := isDateValid_iff.mp hvalid
  have hlength : ∀ year month : ℤ, 1 ≤ month → month ≤ 12 →
      QRomanCalendar.daysInMonth isLeapYear month year ≤ 31 := by
    intro year month hfirst hlast
    unfold QRomanCalendar.daysInMonth
    split
    · decide
    · split
      · split <;> decide
      · interval_cases month <;> decide
  exact ⟨hyear, hfirst, hlast, hday, hle.trans (hlength _ _ hfirst hlast)⟩

/-- The dates are those of all years of 32 bits. -/
theorem inInt_year (date : QDate) :
  InInt date.parts.year
  := by
  obtain ⟨y, hle, hlt, hparts⟩ := partsFromJulian_eq date.jd
  have hmin := date.minJd_le
  have hmax := date.le_maxJd
  rw [parts, hparts]
  rw [year_eq] at hle hlt ⊢
  unfold dateIn civil monthOf blockCode FiveMonths InInt
  unfold BaseJd LeapDayGregorian1Bce at hle hlt ⊢
  have hlow : -2147483648 ≤ y := by omega
  have hhigh : y ≤ 2147483647 := by omega
  dsimp only
  -- The first date is in January and the last one in December.
  rcases hlow.eq_or_lt with rfl | hlow
  · rw [if_neg (by omega)]
    dsimp only
    decide
  · rcases hhigh.eq_or_lt with rfl | hhigh
    · rw [if_pos (by omega)]
      dsimp only
      decide
    · split
      · split
        · omega
        · omega
      · split
        · omega
        · omega

end QDate

namespace QGregorianCalendar

/-- A year that can stand in for that of a date where years and years of two digits are limited. -/
structure StandsIn (date : YearMonthDay) (res : ℤ) : Prop where
  after_epoch : 1970 ≤ res
  le_last : res ≤ 2400
  leap : leapTest res = leapTest date.year
  weekDays : ∀ month day, (julianFromParts res month day).map weekDayOfJulian
    = (julianFromParts date.year month day).map weekDayOfJulian
  own : 1970 ≤ date.year → date.year ≤ 2399 → res = date.year
  lastTwo : ¬(1970 ≤ date.year ∧ date.year ≤ 2399) → res % 100 ≠ date.month ∧ res % 100 ≠ date.day

/-! ### The year that is found -/

/-- The year at the same place in a cycle of 400 years that `yearInCycle` gives. -/
def cycleYear (year : ℤ) : ℤ :=
  if year < 1970 then 2400 - (2000 - throughZero year) % 400
  else if 2399 < year then 2000 + (year - 2000) % 400
  else year

/-- The last two digits of the year are the month or the day. -/
def Clash (date : YearMonthDay) : Prop :=
  throughZero date.year % 100 = date.month ∨ throughZero date.year % 100 = date.day

instance : DecidablePred Clash :=
  fun date => inferInstanceAs (Decidable
    (throughZero date.year % 100 = date.month ∨ throughZero date.year % 100 = date.day))

/-- The year of the tables with the same weekdays. -/
def tableYear (year : ℤ) : ℤ :=
  (if leapTest year then leaps else usual)[(years.year (throughZero year - 1) % 7).toNat]?.getD 0

/-- The year that `yearSharingWeekDays` gives. -/
def sharedYear (date : YearMonthDay) : ℤ :=
  if 1970 ≤ date.year ∧ date.year ≤ 2399 then date.year
  else if Clash date then tableYear date.year
  else cycleYear date.year

theorem cycleYear_bounds (year : ℤ) :
  1970 ≤ cycleYear year ∧ cycleYear year ≤ 2400
    ∧ (cycleYear year = year ↔ 1970 ≤ year ∧ year ≤ 2399)
  := by
  unfold cycleYear
  split
  · omega
  · split
    · omega
    · omega

theorem cycleYear_eq (year : ℤ) :
  ∃ k, throughZero (cycleYear year) = throughZero year + 400 * k
  := by
  have hbounds := cycleYear_bounds year
  have hthrough : throughZero (cycleYear year) = cycleYear year := if_neg (by omega)
  rw [hthrough]
  unfold cycleYear throughZero
  split
  · split
    · use (2400 - (2000 - (year + 1)) % 400 - (year + 1)) / 400
      omega
    · use (2400 - (2000 - year) % 400 - year) / 400
      omega
  · rw [if_neg (show ¬ year < 0 by omega)]
    split
    · use (2000 + (year - 2000) % 400 - year) / 400
      omega
    · use 0
      omega

theorem tables (leap : Bool) (weekDay : Fin 7) :
  let year := (if leap then leaps else usual)[weekDay.val]?.getD 0
  1970 ≤ year ∧ year ≤ 2399 ∧ 31 < year % 100 ∧ leapTest year = leap
    ∧ years.year (throughZero year - 1) % 7 = weekDay.val
  := by
  revert leap weekDay
  decide

theorem tableYear_eq (year : ℤ) :
  1970 ≤ tableYear year ∧ tableYear year ≤ 2399 ∧ 31 < tableYear year % 100
    ∧ leapTest (tableYear year) = leapTest year
    ∧ years.year (throughZero (tableYear year) - 1) % 7 = years.year (throughZero year - 1) % 7
  := by
  have hweekDay : ∃ weekDay : Fin 7,
      years.year (throughZero year - 1) % 7 = weekDay.val := by
    use ⟨(years.year (throughZero year - 1) % 7).toNat, by omega⟩
    dsimp only
    omega
  obtain ⟨weekDay, hweekDay⟩ := hweekDay
  rw [tableYear, hweekDay, Int.toNat_natCast]
  apply tables

theorem sharedYear_standsIn (date : QDate) :
  StandsIn date.parts (sharedYear date.parts)
  := by
  obtain ⟨hzero, hfirst, hlast, hday, hdays⟩ := date.month_day
  generalize date.parts = date at *
  unfold sharedYear
  split
  next hown =>
    refine ⟨hown.1, hown.2.trans (by decide), rfl, fun _ _ => rfl, fun _ _ => rfl, ?_⟩
    exact fun h => absurd hown h
  next hown =>
    split
    next hclash =>
      obtain ⟨hlow, hhigh, htwo, hleap, hstart⟩ := tableYear_eq date.year
      refine ⟨hlow, by omega, hleap, ?_, fun h h' => absurd ⟨h, h'⟩ hown, ?_⟩
      · apply weekDays_congr (by omega) hzero hleap hstart
      · omega
    next hclash =>
      obtain ⟨hlow, hhigh, -⟩ := cycleYear_bounds date.year
      obtain ⟨k, hk⟩ := cycleYear_eq date.year
      have hthrough : throughZero (cycleYear date.year) = cycleYear date.year :=
        if_neg (by omega)
      have hleap : leapTest (cycleYear date.year) = leapTest date.year := by
        apply leapTest_congr (by omega) hzero
        rw [hk, isLeap_add_cycle]
      refine ⟨hlow, hhigh, hleap, ?_, fun h h' => absurd ⟨h, h'⟩ hown, ?_⟩
      · apply weekDays_congr (by omega) hzero hleap
        rw [hk, show throughZero date.year + 400 * k - 1 = throughZero date.year - 1 + 400 * k by
          omega, year_add_cycle]
        omega
      · unfold Clash at hclash
        omega

/-! ### Where the arithmetic stays in `int` -/

theorem yearInCycle_gives_iff {year : ℤ} (hint : InInt year) {res : ℤ} :
  (yearInCycle year).Gives res ↔ -2147481648 ≤ year ∧ cycleYear year = res
  := by
  unfold yearInCycle cycleYear
  split
  next hbefore =>
    rw [gives_incrementNegative_bind_iff hint, gives_int_bind_iff, gives_pure_iff,
      Int.tmod_eq_emod_of_nonneg]
    · apply and_congr_left'
      unfold InInt throughZero at *
      split
      · omega
      · omega
    · unfold throughZero
      split
      · omega
      · omega
  next hafter =>
    split
    next hlate =>
      rw [gives_int_bind_iff, gives_pure_iff, Int.tmod_eq_emod_of_nonneg (by omega)]
      apply and_congr_left'
      unfold InInt at *
      omega
    next hown =>
      rw [gives_pure_iff, and_iff_right (by omega)]

theorem yearStartWeekDay_gives_iff {year : ℤ} (hint : InInt year) {weekDay : ℤ} :
  (yearStartWeekDay year).Gives weekDay
    ↔ (-1717986118 ≤ year ∧ year ≤ 1717987719)
      ∧ years.year (throughZero year - 1) % 7 + 1 = weekDay
  := by
  have hy : year - (if year < 0 then 800 else 801) = throughZero year - 801 := by
    unfold throughZero
    split
    · omega
    · omega
  unfold yearStartWeekDay
  simp only [gives_int_bind_iff, gives_pure_iff, hy, qDiv_eq (show (0 : ℤ) < 4 by decide),
    qDiv_eq (show (0 : ℤ) < 100 by decide), qDiv_eq (show (0 : ℤ) < 400 by decide),
    qMod_eq (show (0 : ℤ) < 7 by decide), yearStart_mod, ← and_assoc]
  apply and_congr_left'
  unfold InInt throughZero at *
  split
  · omega
  · omega

/-- The years for which no operation leaves the range of `int`. -/
def StaysInInt (date : YearMonthDay) : Prop :=
  -2147481648 ≤ date.year
    ∧ (¬(1970 ≤ date.year ∧ date.year ≤ 2399) → Clash date →
      -1717986118 ≤ date.year ∧ date.year ≤ 1717987719)

theorem lastTwo_cycleYear {date : YearMonthDay} :
  Int.tmod (cycleYear date.year) 100 = throughZero date.year % 100
  := by
  obtain ⟨hlow, -⟩ := cycleYear_bounds date.year
  obtain ⟨k, hk⟩ := cycleYear_eq date.year
  have hthrough : throughZero (cycleYear date.year) = cycleYear date.year :=
    if_neg (by omega)
  rw [Int.tmod_eq_emod_of_nonneg (by omega)]
  omega

theorem withoutClash_gives_iff (date : QDate) {res : ℤ} :
  (withoutClash date.parts (cycleYear date.parts.year)).Gives res
    ↔ (Clash date.parts → -1717986118 ≤ date.parts.year ∧ date.parts.year ≤ 1717987719)
      ∧ (if Clash date.parts then tableYear date.parts.year else cycleYear date.parts.year) = res
  := by
  obtain ⟨-, hfirst, hlast, hday, hdays⟩ := date.month_day
  have hint := date.inInt_year
  generalize date.parts = date at *
  unfold withoutClash
  dsimp only
  rw [lastTwo_cycleYear]
  by_cases h : Clash date
  · have hdigits : throughZero date.year % 100 = date.month
        ∨ throughZero date.year % 100 = date.day := h
    rw [if_pos hdigits, if_pos h, imp_iff_right h, gives_assert_bind_iff, gives_bind_iff,
      and_iff_right]
    · simp only [yearStartWeekDay_gives_iff hint, gives_pure_iff]
      constructor
      · rintro ⟨weekDay, ⟨hrange, rfl⟩, hres⟩
        rw [Int.add_sub_cancel] at hres
        exact ⟨hrange, hres⟩
      · rintro ⟨hrange, hres⟩
        refine ⟨_, ⟨hrange, rfl⟩, ?_⟩
        rw [Int.add_sub_cancel]
        exact hres
    · unfold Clash at h
      omega
  · have hdigits : ¬(throughZero date.year % 100 = date.month
        ∨ throughZero date.year % 100 = date.day) := h
    rw [if_neg hdigits, if_neg h, gives_pure_iff, and_iff_right]
    exact fun hclash => absurd hclash h

theorem yearSharingWeekDays_gives_iff (date : QDate) {res : ℤ} :
  (yearSharingWeekDays date.parts).Gives res
    ↔ StaysInInt date.parts ∧ sharedYear date.parts = res
  := by
  have hstandsIn := sharedYear_standsIn date
  have hdays : ∀ month day, dayOfWeek (sharedYear date.parts) month day
      = dayOfWeek date.parts.year month day := by
    intro month day
    rw [dayOfWeek, hstandsIn.weekDays, dayOfWeek]
  obtain ⟨hlow, hhigh, hown⟩ := cycleYear_bounds date.parts.year
  have hbounds := And.intro hstandsIn.after_epoch hstandsIn.le_last
  unfold yearSharingWeekDays StaysInInt
  simp only [gives_bind_iff, yearInCycle_gives_iff date.inInt_year, and_assoc, exists_and_left,
    exists_eq_left']
  apply and_congr_right
  intro hyear
  simp only [← gives_bind_iff, gives_assert_bind_iff]
  rw [and_iff_right (show 0 < cycleYear date.parts.year by omega)]
  by_cases h : 1970 ≤ date.parts.year ∧ date.parts.year ≤ 2399
  · rw [if_neg (not_not.mpr (hown.mpr h)), gives_assert_bind_iff, and_iff_right ⟨hlow, hhigh⟩,
      gives_pure_iff, and_iff_right (fun hnot => absurd h hnot), sharedYear, if_pos h,
      hown.mpr h]
  · rw [if_pos (mt hown.mp h), imp_iff_right h, gives_bind_iff]
    have hshared : (if Clash date.parts then tableYear date.parts.year
        else cycleYear date.parts.year) = sharedYear date.parts := (if_neg h).symm
    simp only [withoutClash_gives_iff, hshared, and_assoc, exists_and_left, exists_eq_left',
      gives_assert_bind_iff, gives_pure_iff]
    rw [and_iff_right (hdays 1 1), and_iff_right (hdays 12 31), and_iff_right hbounds.1,
      and_iff_right hbounds.2]

/-- A year that stands in for the year of the date is found exactly where the arithmetic stays in
`int`. -/
theorem yearSharingWeekDays_standsIn_iff (date : QDate) :
  (∃ res, (yearSharingWeekDays date.parts).Gives res ∧ StandsIn date.parts res)
    ↔ StaysInInt date.parts
  := by
  constructor
  · rintro ⟨res, h_gives, -⟩
    exact ((yearSharingWeekDays_gives_iff date).mp h_gives).1
  · intro h
    exact ⟨_, (yearSharingWeekDays_gives_iff date).mpr ⟨h, rfl⟩, sharedYear_standsIn date⟩

/-- The year of the first valid date is too far from 2000. -/
theorem yearSharingWeekDays_first :
  (QDate.mk (-784350574879) (by decide) (by decide)).parts = ⟨-2147483648, 1, 1⟩
    ∧ yearSharingWeekDays ⟨-2147483648, 1, 1⟩ = ⟨2449, false⟩
    ∧ ¬StandsIn ⟨-2147483648, 1, 1⟩ 2449
  := by
  refine ⟨by decide, by decide, ?_⟩
  intro h
  have h_last := h.le_last
  omega

end QGregorianCalendar
