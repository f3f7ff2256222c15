import Mathlib.Data.Int.Notation
import Mathlib.Data.Nat.Bitwise

/-!
# Calendars

The arithmetic of `qcalendarmath_p.h` and the Gregorian, Julian, Milankovic and Islamic Civil
calendars.  Years, days and Julian days are integers without a bound.
-/

namespace QRoundingDown

/-- Division by a positive number, rounding down, from the division that rounds towards zero. -/
def qDivMod (b a : ℤ) : ℤ × ℤ :=
  if a < 0 then (Int.tdiv (a + 1) b - 1, Int.tmod (a + 1) b - 1 + b)
  else (Int.tdiv a b, Int.tmod a b)

def qDiv (b a : ℤ) : ℤ :=
  (qDivMod b a).1

def qMod (b a : ℤ) : ℤ :=
  (qDivMod b a).2

end QRoundingDown

open QRoundingDown

namespace QCalendar

structure YearMonthDay where
  year : ℤ
  month : ℤ
  day : ℤ
deriving DecidableEq, Repr

/-- The least `int` stands for an unspecified year. -/
def Unspecified : ℤ := -2147483648

end QCalendar

open QCalendar (YearMonthDay Unspecified)

namespace QRomanCalendrical

/-- The Julian Day number of Gregorian 1 BCE, February 29th. -/
def LeapDayGregorian1Bce : ℤ := 1721119

def FourYears : ℤ := 4 * 365 + 1

/-- March to July or August to December. -/
def FiveMonths : ℤ := 31 + 30 + 31 + 30 + 31

/-- The year that begins with March, and the days of it before the month. -/
def yearMonthToYearDays (year month : ℤ) : ℤ × ℤ :=
  -- There is no year 0.
  let year := if year < 0 then year + 1 else year
  let month := month - 3
  if month < 0 then (year - 1, qDiv 5 (FiveMonths * (month + 12) + 2))
  else (year, qDiv 5 (FiveMonths * month + 2))

/-- The year is relative to the one that begins with March. -/
def dayInYearToYmd (dayInYear : ℤ) : YearMonthDay :=
  let month5Day := qDivMod FiveMonths (5 * dayInYear + 2)
  let yearMonth := qDivMod 12 (month5Day.1 + 2)
  ⟨yearMonth.1, yearMonth.2 + 1, qDiv 5 month5Day.2 + 1⟩

/-- Long if odd up to July, or if even from August on. -/
def monthLength (month : ℤ) : ℤ :=
  (30 ||| ((month.toNat &&& 1) ^^^ (month.toNat >>> 3)) : ℕ)

end QRomanCalendrical

open QRomanCalendrical

/-- The virtual functions of a calendar. -/
structure QCalendarBackend where
  isLeapYear : ℤ → Bool
  daysInMonth : ℤ → ℤ → ℤ
  dateToJulianDay : ℤ → ℤ → ℤ → Option ℤ
  julianDayToDate : ℤ → YearMonthDay

namespace QCalendarBackend

def validDay (daysInMonth : ℤ → ℤ → ℤ) (year month day : ℤ) : Bool :=
  0 < day && day ≤ daysInMonth month year

def isDateValid (calendar : QCalendarBackend) (year month day : ℤ) : Bool :=
  validDay calendar.daysInMonth year month day

end QCalendarBackend

open QCalendarBackend (validDay)

namespace QRomanCalendar

def daysInMonth (isLeapYear : ℤ → Bool) (month year : ℤ) : ℤ :=
  if year = 0 ∨ month < 1 ∨ 12 < month then 0
  else if month = 2 then if year = Unspecified ∨ isLeapYear year = true then 29 else 28
  else monthLength month

end QRomanCalendar

namespace QHijriCalendar

def daysInMonth (isLeapYear : ℤ → Bool) (month year : ℤ) : ℤ :=
  if year = 0 ∨ month < 1 ∨ 12 < month then 0
  else if month = 12 ∧ (year = Unspecified ∨ isLeapYear year = true) then 30
  else if Int.tmod month 2 = 0 then 29 else 30

end QHijriCalendar

namespace QGregorianCalendar

def leapTest (year : ℤ) : Bool :=
  if year = Unspecified then false
  else
    let year := if year < 1 then year + 1 else year
    Int.tmod year 4 = 0 && (Int.tmod year 100 ≠ 0 || Int.tmod year 400 = 0)

def isLeapYear (year : ℤ) : Bool :=
  leapTest year

def monthLength (month year : ℤ) : ℤ :=
  if month < 1 ∨ 12 < month then 0
  else if month = 2 then if leapTest year then 29 else 28
  else QRomanCalendrical.monthLength month

def validParts (year month day : ℤ) : Bool :=
  year ≠ 0 && 0 < day && day ≤ monthLength month year

def BaseJd : ℤ := LeapDayGregorian1Bce

def FourCenturies : ℤ := 400 * 365 + 97

def julianFromParts (year month day : ℤ) : Option ℤ :=
  if validParts year month day then
    let yearDays := yearMonthToYearDays year month
    let y := yearDays.1
    let fromYear := 365 * y + qDiv 4 y - qDiv 100 y + qDiv 400 y
    some (fromYear + yearDays.2 + day + BaseJd)
  else none

def partsFromJulian (jd : ℤ) : YearMonthDay :=
  let dayNumber := jd - BaseJd
  let century := qDiv FourCenturies (4 * dayNumber - 1)
  let dayInCentury := dayNumber - qDiv 4 (FourCenturies * century)
  let yearInCentury := qDiv FourYears (4 * dayInCentury - 1)
  let dayInYear := dayInCentury - qDiv 4 (FourYears * yearInCentury)
  let m := qDiv FiveMonths (5 * dayInYear - 3)
  let yearOffset := if m < 10 then 0 else 1
  let y := 100 * century + yearInCentury + yearOffset
  let month := m + 3 - 12 * yearOffset
  let day := dayInYear - qDiv 5 (FiveMonths * m + 2)
  ⟨if 0 < y then y else y - 1, month, day⟩

def backend : QCalendarBackend where
  isLeapYear := isLeapYear
  daysInMonth := QRomanCalendar.daysInMonth isLeapYear
  dateToJulianDay := julianFromParts
  julianDayToDate := partsFromJulian

end QGregorianCalendar

namespace QJulianCalendar

def isLeapYear (year : ℤ) : Bool :=
  if year = Unspecified ∨ year = 0 then false
  else qMod 4 (if year < 0 then year + 1 else year) = 0

def JulianBaseJd : ℤ := LeapDayGregorian1Bce - 2

def dateToJulianDay (year month day : ℤ) : Option ℤ :=
  if validDay (QRomanCalendar.daysInMonth isLeapYear) year month day then
    let yearDays := yearMonthToYearDays year month
    some (qDiv 4 (FourYears * yearDays.1) + yearDays.2 + day + JulianBaseJd)
  else none

def julianDayToDate (jd : ℤ) : YearMonthDay :=
  let year4Day := qDivMod FourYears (4 * (jd - JulianBaseJd) - 1)
  let ymd := dayInYearToYmd (qDiv 4 year4Day.2)
  let y := year4Day.1 + ymd.year
  ⟨if 0 < y then y else y - 1, ymd.month, ymd.day⟩

def backend : QCalendarBackend where
  isLeapYear := isLeapYear
  daysInMonth := QRomanCalendar.daysInMonth isLeapYear
  dateToJulianDay := dateToJulianDay
  julianDayToDate := julianDayToDate

end QJulianCalendar

namespace QMilankovicCalendar

def isLeapYear (year : ℤ) : Bool :=
  if year = Unspecified then false
  else
    let year := if year ≤ 0 then year + 1 else year
    if qMod 4 year ≠ 0 then false
    else
      let yeardm := qDivMod 100 year
      if yeardm.2 = 0 then
        let century := qMod 9 yeardm.1
        if century ≠ 2 ∧ century ≠ 6 then false else true
      else true

def MilankovicBaseJd : ℤ := LeapDayGregorian1Bce

def NineCenturies : ℤ := 365 * 900 + 900 / 4 - 7

def LeapCentury : ℤ := 365 * 100 + 25

def dateToJulianDay (year month day : ℤ) : Option ℤ :=
  if validDay (QRomanCalendar.daysInMonth isLeapYear) year month day then
    let yearDays := yearMonthToYearDays year month
    let centuryYear := qDivMod 100 yearDays.1
    let fromYear :=
      qDiv 9 (NineCenturies * centuryYear.1 + 6) + qDiv 100 (LeapCentury * centuryYear.2)
    some (fromYear + yearDays.2 + day + MilankovicBaseJd)
  else none

def julianDayToDate (jd : ℤ) : YearMonthDay :=
  let century9Day := qDivMod NineCenturies (9 * (jd - MilankovicBaseJd) - 7)
  let year100Day := qDivMod LeapCentury (100 * qDiv 9 century9Day.2 + 99)
  let ymd := dayInYearToYmd (qDiv 100 year100Day.2)
  let y := 100 * century9Day.1 + year100Day.1 + ymd.year
  ⟨if 0 < y then y else y - 1, ymd.month, ymd.day⟩

def backend : QCalendarBackend where
  isLeapYear := isLeapYear
  daysInMonth := QRomanCalendar.daysInMonth isLeapYear
  dateToJulianDay := dateToJulianDay
  julianDayToDate := julianDayToDate

end QMilankovicCalendar

namespace QIslamicCivilCalendar

def isLeapYear (year : ℤ) : Bool :=
  if year = Unspecified then false
  else
    let year := if year < 0 then year + 1 else year
    qMod 30 (year * 11 + 14) < 11

/-- The first day of the first year. -/
def EpochJd : ℤ := 1948440

def ThirtyYears : ℤ := 11 * 355 + 19 * 354

def ElevenMonths : ℤ := 6 * 30 + 5 * 29

def dateToJulianDay (year month day : ℤ) : Option ℤ :=
  if validDay (QHijriCalendar.daysInMonth isLeapYear) year month day then
    some (qDiv 30 (ThirtyYears * (if 0 < year then year - 1 else year) + 14)
      + qDiv 11 (ElevenMonths * (month - 1) + 5) + day + EpochJd - 1)
  else none

def julianDayToDate (jd : ℤ) : YearMonthDay :=
  let year30Day := qDivMod ThirtyYears (30 * (jd - EpochJd) + 15)
  let month11Day := qDivMod ElevenMonths (11 * qDiv 30 year30Day.2 + 5)
  let month := month11Day.1 + 1
  let day := qDiv 11 month11Day.2 + 1
  let y := year30Day.1 + 1
  ⟨if 0 < y then y else y - 1, month, day⟩

def backend : QCalendarBackend where
  isLeapYear := isLeapYear
  daysInMonth := QHijriCalendar.daysInMonth isLeapYear
  dateToJulianDay := dateToJulianDay
  julianDayToDate := julianDayToDate

end QIslamicCivilCalendar
