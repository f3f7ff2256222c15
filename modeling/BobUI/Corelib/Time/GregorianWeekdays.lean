import BobUI.Corelib.Time.LeapYears

/-!
# Weekdays in the Gregorian calendar

The functions of `qgregoriancalendar.cpp` that look for a year with given weekdays, and the
weekdays of a year: they repeat after four centuries, and depend on the weekday of the first day of
the year and on whether it is a leap year.
-/

open QRoundingDown QRomanCalendrical Checked
open QCalendar (YearMonthDay)

namespace QGregorianCalendar

/-! ### The functions -/

/-- Monday is 1. -/
def weekDayOfJulian (jd : ℤ) : ℤ :=
  qMod 7 jd + 1

/-- `dayOfWeek` of the date with these parts. -/
def dayOfWeek (year month day : ℤ) : ℤ :=
  ((julianFromParts year month day).map weekDayOfJulian).getD 0

def yearStartWeekDay (year : ℤ) : Checked ℤ := do
  let y ← int (year - (if year < 0 then 800 else 801))
  let days ← int (y + qDiv 4 y)
  let days ← int (days - qDiv 100 y)
  let days ← int (days + qDiv 400 y)
  pure (qMod 7 days + 1)

/-- Years whose last two digits are greater than 31, by the weekday of their first day. -/
def usual : List ℤ :=
  [2198, 2199, 2098, 2099, 2399, 2298, 2299]

/-- Leap years whose last two digits are greater than 31, by the weekday of their first day. -/
def leaps : List ℤ :=
  [2396, 2284, 2296, 2184, 2196, 2084, 2096]

/-- A year from 1970 to 2400 at the same place in the cycle of 400 years. -/
def yearInCycle (year : ℤ) : Checked ℤ :=
  if year < 1970 then do
    let year ← incrementNegative year
    let difference ← int (2000 - year)
    pure (2400 - Int.tmod difference 400)
  else if 2399 < year then do
    let difference ← int (year - 2000)
    pure (2000 + Int.tmod difference 400)
  else pure year

/-- The year, or one from the tables where the last two digits are the month or the day. -/
def withoutClash (date : YearMonthDay) (res : ℤ) : Checked ℤ :=
  let lastTwo := Int.tmod res 100
  if lastTwo = date.month ∨ lastTwo = date.day then do
    -- `lastTwo && !(lastTwo & ~31)`
    assert (lastTwo ≠ 0 ∧ 0 ≤ lastTwo ∧ lastTwo < 32)
    let weekDay ← yearStartWeekDay date.year
    pure ((if leapTest date.year then leaps else usual)[(weekDay - 1).toNat]?.getD 0)
  else pure res

def yearSharingWeekDays (date : YearMonthDay) : Checked ℤ := do
  let res ← yearInCycle date.year
  assert (0 < res)
  if res ≠ date.year then do
    let res ← withoutClash date res
    assert (dayOfWeek res 1 1 = dayOfWeek date.year 1 1)
    assert (dayOfWeek res 12 31 = dayOfWeek date.year 12 31)
    assert (1970 ≤ res ∧ res ≤ 2400)
    pure res
  else do
    assert (1970 ≤ res ∧ res ≤ 2400)
    pure res

/-- What `std::numeric_limits<qint64>::min` stands for here: there is no such date. -/
def noDate : ℤ := -9223372036854775808

/-- A valid date that falls on the weekday. -/
def fallingOn (dow year month day : ℤ) : Option ℤ :=
  (julianFromParts year month day).filter fun jd => weekDayOfJulian jd = dow

/-- The year, which is counted through 0, in the calendar: `year > 0 ? year : year - 1`. -/
def calendarYear (year : ℤ) : Checked ℤ :=
  if 0 < year then pure year else int (year - 1)

/-- What remains of `matchCenturyToWeekday` for a valid date. -/
def matchValid (parts : YearMonthDay) (dow jd : ℤ) : Checked ℤ :=
  let diff := weekDayOfJulian jd - dow
  if diff = 0 then pure jd
  else do
    let year ← incrementNegative parts.year
    -- Dates before March belong with the dates since the preceding March.
    let year3 ← int (year - (if parts.month < 3 then 1 else 0))
    let centuryMod4 := qMod 4 (qDiv 100 year3)
    if qMod 7 (diff * 4 + centuryMod4) < 4 then do
      let year ← int (year + ((qMod 7 diff + 3) / 2 % 4 - 1) * 100)
      let inCalendar ← calendarYear year
      match fallingOn dow inCalendar parts.month parts.day with
      | some jd => pure jd
      | none => do
        assert (parts.month = 2 ∧ parts.day = 29 ∧ dow ≠ 2 ∧ Int.tmod year 100 = 0)
        pure noDate
    else pure noDate

/-- What remains of `matchCenturyToWeekday` for a 29 February that is not valid. -/
def matchLeapDay (parts : YearMonthDay) (dow : ℤ) : Checked ℤ := do
  let year ← incrementNegative parts.year
  let yearSplit := qDivMod 100 year
  if yearSplit.2 = 0 then do
    let centuryMod4 := qMod 4 yearSplit.1
    assert (centuryMod4 ≠ 0)
    let year ← int (if centuryMod4 = 1 then year - 100 else year + (4 - centuryMod4) * 100)
    let inCalendar ← calendarYear year
    match fallingOn dow inCalendar parts.month parts.day with
    | some jd => pure jd
    | none => do
      assert (dow ≠ 2)
      pure noDate
  else pure noDate

def matchCenturyToWeekday (parts : YearMonthDay) (dow : ℤ) : Checked ℤ :=
  match julianFromParts parts.year parts.month parts.day with
  | some jd => matchValid parts dow jd
  | none =>
    if parts.month = 2 ∧ parts.day = 29 then matchLeapDay parts dow else pure noDate

/-! ### The weekdays of a year -/

/-- The Julian day number of a day of a year that is counted through 0. -/
def dayNumber (y month day : ℤ) : ℤ :=
  years.year (if month < 3 then y - 1 else y) + blockStart FiveMonths 5 2 (fromMarch month) + day
    + BaseJd

theorem julianFromParts_eq (year month day : ℤ) :
  julianFromParts year month day
    = if validParts year month day then some (dayNumber (throughZero year) month day) else none
  := by
  unfold julianFromParts
  rw [yearMonthToYearDays_eq]
  dsimp only
  rw [qDiv_eq (show (0 : ℤ) < 4 by decide), qDiv_eq (show (0 : ℤ) < 100 by decide),
    qDiv_eq (show (0 : ℤ) < 400 by decide), ← year_eq]
  rfl

/-- The years that have a leap day, counted through 0. -/
def IsLeap (y : ℤ) : Prop :=
  y % 4 = 0 ∧ (y % 100 ≠ 0 ∨ y % 400 = 0)

instance : DecidablePred IsLeap :=
  fun y => inferInstanceAs (Decidable (y % 4 = 0 ∧ (y % 100 ≠ 0 ∨ y % 400 = 0)))

/-- The first day of a year that begins with March, from that of the last one. -/
theorem year_succ (y : ℤ) :
  years.year y = years.year (y - 1) + if IsLeap y then 366 else 365
  := by
  rw [year_eq, year_eq]
  by_cases h : IsLeap y
  · rw [if_pos h]
    unfold IsLeap at h
    omega
  · rw [if_neg h]
    unfold IsLeap at h
    omega

theorem year_add_cycle (y k : ℤ) :
  years.year (y + 400 * k) = years.year y + 146097 * k
  := by
  rw [year_eq, year_eq]
  omega

theorem isLeap_add_cycle (y k : ℤ) :
  IsLeap (y + 400 * k) ↔ IsLeap y
  := by
  unfold IsLeap
  omega

theorem leapTest_iff_isLeap {year : ℤ} (h : year ≠ 0) :
  leapTest year = true ↔ IsLeap (throughZero year)
  := by
  rw [leapTest_iff h, Years.Leap, year_succ (throughZero year)]
  split
  next hleap => exact iff_of_true rfl hleap
  next hleap =>
    apply iff_of_false _ hleap
    omega

theorem leapTest_congr {year year' : ℤ} (h : year ≠ 0) (h' : year' ≠ 0)
    (hleap : IsLeap (throughZero year) ↔ IsLeap (throughZero year')) :
  leapTest year = leapTest year'
  := by
  rw [Bool.eq_iff_iff, leapTest_iff_isLeap h, leapTest_iff_isLeap h', hleap]

theorem weekDayOfJulian_congr {jd jd' : ℤ} (h : jd % 7 = jd' % 7) :
  weekDayOfJulian jd = weekDayOfJulian jd'
  := by
  rw [weekDayOfJulian, weekDayOfJulian, qMod_eq (by decide), qMod_eq (by decide), h]

/-- Years that are alike have the same dates. -/
theorem validParts_congr {year year' : ℤ} (h : year ≠ 0) (h' : year' ≠ 0)
    (hleap : leapTest year = leapTest year') (month day : ℤ) :
  validParts year month day = validParts year' month day
  := by
  rw [validParts, validParts, monthLength, monthLength, hleap, decide_eq_true h, decide_eq_true h']

/-- The weekdays of a year depend on that of its first day and on whether it is a leap year. -/
theorem weekDays_congr {year year' : ℤ} (h : year ≠ 0) (h' : year' ≠ 0)
    (hleap : leapTest year = leapTest year')
    (hstart : years.year (throughZero year - 1) % 7 = years.year (throughZero year' - 1) % 7)
    (month day : ℤ) :
  (julianFromParts year month day).map weekDayOfJulian
    = (julianFromParts year' month day).map weekDayOfJulian
  := by
  rw [julianFromParts_eq, julianFromParts_eq, validParts_congr h h' hleap]
  split
  · have hlength : IsLeap (throughZero year) ↔ IsLeap (throughZero year') := by
      rw [← leapTest_iff_isLeap h, ← leapTest_iff_isLeap h', hleap]
    rw [Option.map_some, Option.map_some, Option.some.injEq]
    apply weekDayOfJulian_congr
    unfold dayNumber
    split
    · omega
    · rw [year_succ (throughZero year), year_succ (throughZero year')]
      simp only [hlength]
      omega
  · rfl

theorem yearStart_mod (y : ℤ) :
  (y - 801 + (y - 801) / 4 - (y - 801) / 100 + (y - 801) / 400) % 7 = years.year (y - 1) % 7
  := by
  have hcycle := year_add_cycle (y - 801) 2
  have hyear := year_eq (y - 801)
  rw [show y - 801 + 400 * 2 = y - 1 by omega] at hcycle
  omega

end QGregorianCalendar
