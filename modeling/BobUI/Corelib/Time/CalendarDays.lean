import BobUI.Corelib.Time.CalendarCount
import Mathlib.Tactic.IntervalCases

/-!
# The four calendars as counts of days

The years of a Roman calendar are counted from March, so that the leap day is the last of its year;
those of the Islamic Civil calendar are counted as they are.
-/

namespace QRoundingDown

/-- The division rounds down for negative numbers too. -/
theorem qDivMod_eq {b : ℤ} (h : 0 < b) (a : ℤ) :
  qDivMod b a = (a / b, a % b)
  := by
  unfold qDivMod
  split
  next hneg =>
    obtain ⟨n, rfl⟩ := Int.eq_negSucc_of_lt_zero hneg
    have hsucc : Int.negSucc n + 1 = -(n : ℤ) := by omega
    rw [hsucc, Int.neg_tdiv, Int.neg_tmod, Int.tdiv_eq_ediv_of_nonneg (Int.natCast_nonneg n),
      Int.tmod_eq_emod_of_nonneg (Int.natCast_nonneg n), Int.negSucc_ediv _ h,
      Int.negSucc_emod _ h]
    rw [Prod.mk.injEq]
    constructor
    · change _ = -(n / b + 1)
      omega
    · omega
  next hnonneg =>
    rw [Int.tdiv_eq_ediv_of_nonneg (by omega), Int.tmod_eq_emod_of_nonneg (by omega)]

theorem qDiv_eq {b : ℤ} (h : 0 < b) (a : ℤ) :
  qDiv b a = a / b
  := by
  rw [qDiv, qDivMod_eq h]

theorem qMod_eq {b : ℤ} (h : 0 < b) (a : ℤ) :
  qMod b a = a % b
  := by
  rw [qMod, qDivMod_eq h]

end QRoundingDown

open QRoundingDown QCalendarBackend
open QCalendar (YearMonthDay Unspecified)

namespace QRomanCalendrical

/-! ### Years that begin with March -/

/-- The year, counted through 0. -/
def throughZero (year : ℤ) : ℤ :=
  if year < 0 then year + 1 else year

/-- The month, counted from March. -/
def fromMarch (month : ℤ) : ℤ :=
  if month < 3 then month + 9 else month - 3

/-- The year that begins with March, and the month in it. -/
def count (year month : ℤ) : ℤ × ℤ :=
  (if month < 3 then throughZero year - 1 else throughZero year, fromMarch month)

/-- The year and the month of the calendar. -/
def civil (y m : ℤ) : ℤ × ℤ :=
  if m < 10 then (if 0 < y then y else y - 1, m + 3)
  else (if 0 < y + 1 then y + 1 else y, m - 9)

/-- The first days of years with 365 or 366 days. -/
structure Years where
  year : ℤ → ℤ
  common_le : ∀ y, year y + 365 ≤ year (y + 1)
  le_leap : ∀ y, year (y + 1) ≤ year y + 366

/-- The count by years and months from March on. -/
def Years.dates (Y : Years) : DateCount where
  year := Y.year
  month := blockStart FiveMonths 5 2
  months := 12
  month_zero := by decide
  months_pos := by omega
  month_lt := by
    intro m _ _
    unfold blockStart FiveMonths
    omega
  last_lt := by
    intro y
    have h_common := Y.common_le y
    unfold blockStart FiveMonths
    omega

theorem yearMonthToYearDays_eq (year month : ℤ) :
  yearMonthToYearDays year month
    = ((count year month).1, blockStart FiveMonths 5 2 (count year month).2)
  := by
  unfold yearMonthToYearDays count throughZero fromMarch blockStart
  dsimp only
  by_cases h : month < 3
  · rw [if_pos (show month - 3 < 0 by omega), if_pos h, if_pos h, qDiv_eq (by omega)]
    congr 4
    omega
  · rw [if_neg (show ¬ month - 3 < 0 by omega), if_neg h, if_neg h, qDiv_eq (by omega)]

/-- The month of a day in its year. -/
def monthOf (dayInYear : ℤ) : ℤ :=
  blockCode 5 2 dayInYear / FiveMonths

theorem Years.in_monthOf (Y : Years) {x y : ℤ} (hle : Y.year y ≤ x) (hlt : x < Y.year (y + 1)) :
  Y.dates.In x y (monthOf (x - Y.year y))
  := by
  have hleap := Y.le_leap y
  have hmonth : monthOf (x - Y.year y) = monthOf (x - Y.year y) := rfl
  nth_rewrite 1 [monthOf] at hmonth
  rw [blockCode_ediv_eq_iff (by decide) (by decide)] at hmonth
  have hcode : monthOf (x - Y.year y) = (5 * (x - Y.year y) + 2) / 153 := rfl
  refine ⟨hle, hlt, by omega, ?_, ?_, ?_⟩
  · show monthOf (x - Y.year y) < 12
    omega
  · change Y.year y + blockStart FiveMonths 5 2 _ ≤ x
    omega
  · intro _
    change x < Y.year y + blockStart FiveMonths 5 2 _
    omega

/-- The date of a day in the year that begins with March. -/
def dateIn (y dayInYear : ℤ) : YearMonthDay :=
  ⟨(civil y (monthOf dayInYear)).1, (civil y (monthOf dayInYear)).2,
    dayInYear - blockStart FiveMonths 5 2 (monthOf dayInYear) + 1⟩

theorem dayInYearToYmd_eq (dayInYear : ℤ) :
  dayInYearToYmd dayInYear = ⟨(monthOf dayInYear + 2) / 12, (monthOf dayInYear + 2) % 12 + 1,
    dayInYear - blockStart FiveMonths 5 2 (monthOf dayInYear) + 1⟩
  := by
  have hday : (5 * dayInYear + 2) % FiveMonths / 5
      = dayInYear - blockStart FiveMonths 5 2 (monthOf dayInYear) :=
    blockCode_emod_ediv (a := FiveMonths) (c := 2) (show (0 : ℤ) < 5 by decide) dayInYear
  have hmonth : (5 * dayInYear + 2) / FiveMonths = monthOf dayInYear := rfl
  unfold dayInYearToYmd
  rw [qDivMod_eq (show 0 < FiveMonths by decide)]
  dsimp only
  rw [qDivMod_eq (show (0 : ℤ) < 12 by decide), qDiv_eq (show (0 : ℤ) < 5 by decide), hday,
    hmonth]

/-- A day after the first of January is in the next year. -/
theorem dateIn_eq {dayInYear : ℤ} (hnonneg : 0 ≤ dayInYear) (hlt : dayInYear < 366) (y : ℤ) :
  (⟨if 0 < y + (dayInYearToYmd dayInYear).year then y + (dayInYearToYmd dayInYear).year
      else y + (dayInYearToYmd dayInYear).year - 1,
    (dayInYearToYmd dayInYear).month, (dayInYearToYmd dayInYear).day⟩ : YearMonthDay)
    = dateIn y dayInYear
  := by
  have hrange : 0 ≤ monthOf dayInYear ∧ monthOf dayInYear < 12 := by
    change 0 ≤ (5 * dayInYear + 2) / 153 ∧ (5 * dayInYear + 2) / 153 < 12
    omega
  rw [dayInYearToYmd_eq]
  unfold dateIn civil
  dsimp only
  by_cases h : monthOf dayInYear < 10
  · rw [if_pos h, show (monthOf dayInYear + 2) / 12 = 0 by omega, Int.add_zero]
    congr 1
    dsimp only
    omega
  · rw [if_neg h, show (monthOf dayInYear + 2) / 12 = 1 by omega]
    congr 1
    · dsimp only
      rw [Int.add_sub_cancel]
    · dsimp only
      omega

variable {month year : ℤ}

/-- The length of a month other than February. -/
theorem monthLength_eq (hfirst : 1 ≤ month) (hlast : month ≤ 12) (h : month ≠ 2) :
  fromMarch month + 1 < 12 ∧ monthLength month
    = blockStart FiveMonths 5 2 (fromMarch month + 1) - blockStart FiveMonths 5 2 (fromMarch month)
  := by
  interval_cases month <;> first | exact absurd rfl h | decide

/-! ### Roman calendars -/

theorem count_next (hyear : year ≠ 0) (hlast : month ≤ 12) :
  count (nextMonth year month).1 (nextMonth year month).2
    = if (count year month).2 + 1 < 12 then ((count year month).1, (count year month).2 + 1)
      else ((count year month).1 + 1, 0)
  := by
  unfold count nextMonth throughZero fromMarch
  by_cases h : month < 12
  · grind
  · grind

theorem civil_count (hyear : year ≠ 0) (hfirst : 1 ≤ month) (hlast : month ≤ 12) :
  civil (count year month).1 (count year month).2 = (year, month)
    ∧ 0 ≤ (count year month).2 ∧ (count year month).2 < 12
  := by
  unfold civil count throughZero fromMarch
  by_cases h : month < 3
  · grind
  · grind

theorem count_civil {y m : ℤ} (hnonneg : 0 ≤ m) (hlt : m < 12) :
  count (civil y m).1 (civil y m).2 = (y, m) ∧ (civil y m).1 ≠ 0
    ∧ 1 ≤ (civil y m).2 ∧ (civil y m).2 ≤ 12
  := by
  unfold civil count throughZero fromMarch
  by_cases h : m < 10
  · grind
  · grind

variable {calendar : QCalendarBackend} {isLeapYear : ℤ → Bool} {base : ℤ}

theorem Years.length_eq (Y : Years) (hfirst : 1 ≤ month) (hlast : month ≤ 12) (year : ℤ) :
  Y.dates.length (count year month).1 (count year month).2
    = if month = 2 then Y.year (throughZero year) - Y.year (throughZero year - 1) - 337
      else monthLength month
  := by
  unfold DateCount.length
  by_cases htwo : month = 2
  · subst htwo
    rw [if_pos rfl]
    change Y.year (throughZero year - 1 + 1) - Y.year (throughZero year - 1) - 337 = _
    rw [Int.sub_add_cancel]
  · obtain ⟨hlt, heq⟩ := monthLength_eq hfirst hlast htwo
    rw [if_neg htwo, heq]
    exact if_pos hlt

/-- A year is long when it has a leap day, which ends the year that begins with March. -/
def Years.Leap (Y : Years) (year : ℤ) : Prop :=
  Y.year (throughZero year - 1) + 366 = Y.year (throughZero year)

theorem Years.length_eq_daysInMonth {Y : Years} (hzero : year ≠ 0) (hyear : year ≠ Unspecified)
    (hfirst : 1 ≤ month) (hlast : month ≤ 12) (hleap : isLeapYear year = true ↔ Y.Leap year) :
  QRomanCalendar.daysInMonth isLeapYear month year
    = Y.dates.length (count year month).1 (count year month).2
  := by
  rw [Y.length_eq hfirst hlast, QRomanCalendar.daysInMonth,
    if_neg (show ¬ (year = 0 ∨ month < 1 ∨ 12 < month) by omega)]
  by_cases htwo : month = 2
  · rw [if_pos htwo, if_pos htwo]
    have hcommon := Y.common_le (throughZero year - 1)
    have hlong := Y.le_leap (throughZero year - 1)
    rw [Int.sub_add_cancel] at hcommon hlong
    unfold Years.Leap at hleap
    split
    next h =>
      have heq := hleap.mp (h.resolve_left hyear)
      omega
    next h =>
      have hne := mt hleap.mpr (fun htrue => h (Or.inr htrue))
      omega
  · rw [if_neg htwo, if_neg htwo]

theorem Years.length_le_daysInMonth {Y : Years} (hzero : year ≠ 0) (hfirst : 1 ≤ month)
    (hlast : month ≤ 12) (hleap : year ≠ Unspecified → (isLeapYear year = true ↔ Y.Leap year)) :
  Y.dates.length (count year month).1 (count year month).2
    ≤ QRomanCalendar.daysInMonth isLeapYear month year
  := by
  by_cases hyear : year = Unspecified
  · rw [Y.length_eq hfirst hlast, QRomanCalendar.daysInMonth,
      if_neg (show ¬ (year = 0 ∨ month < 1 ∨ 12 < month) by omega)]
    by_cases htwo : month = 2
    · rw [if_pos htwo, if_pos htwo, if_pos (Or.inl hyear)]
      have hlong := Y.le_leap (throughZero year - 1)
      rw [Int.sub_add_cancel] at hlong
      omega
    · rw [if_neg htwo, if_neg htwo]
  · exact Int.le_of_eq
      (Years.length_eq_daysInMonth hzero hyear hfirst hlast (hleap hyear)).symm

theorem Years.validDay_of_le {Y : Years} {day : ℤ} (hzero : year ≠ 0) (hfirst : 1 ≤ month)
    (hlast : month ≤ 12) (hleap : year ≠ Unspecified → (isLeapYear year = true ↔ Y.Leap year))
    (hday : 0 < day) (hle : day ≤ Y.dates.length (count year month).1 (count year month).2) :
  validDay (QRomanCalendar.daysInMonth isLeapYear) year month day = true
  := by
  have hlength := Years.length_le_daysInMonth hzero hfirst hlast hleap
  rw [validDay, Bool.and_eq_true, decide_eq_true_eq, decide_eq_true_eq]
  omega

/-- A Roman calendar counts the days by its years from March on. -/
theorem Years.counts (Y : Years)
    (hleap : ∀ year, year ≠ 0 → year ≠ Unspecified → (isLeapYear year = true ↔ Y.Leap year))
    (hdays : calendar.daysInMonth = QRomanCalendar.daysInMonth isLeapYear)
    (hto : ∀ year month day, year ≠ 0 → 1 ≤ month → month ≤ 12 → 0 < day →
      day ≤ Y.dates.length (count year month).1 (count year month).2 →
        calendar.dateToJulianDay year month day
          = some (Y.year (count year month).1 + blockStart FiveMonths 5 2 (count year month).2
            + day + base))
    (hof : ∀ jd, ∃ y, Y.year y ≤ jd - (base + 1) ∧ jd - (base + 1) < Y.year (y + 1)
      ∧ calendar.julianDayToDate jd = dateIn y (jd - (base + 1) - Y.year y)) :
  Counts calendar Y.dates (base + 1) count civil
  := by
  constructor
  · rfl
  · intro year month hyear hfirst hlast
    exact civil_count hyear hfirst hlast
  · intro y m hnonneg hlt
    exact count_civil hnonneg hlt
  · intro year month hyear _ hlast
    exact count_next hyear hlast
  · intro year month hnot
    rw [hdays, QRomanCalendar.daysInMonth, if_pos hnot]
  · intro year month hzero hyear hfirst hlast
    rw [hdays]
    exact Years.length_eq_daysInMonth hzero hyear hfirst hlast (hleap year hzero hyear)
  · intro year month hzero hfirst hlast
    rw [hdays]
    exact Years.length_le_daysInMonth hzero hfirst hlast (hleap year hzero)
  · intro year month day hzero hfirst hlast hday hle
    rw [hto year month day hzero hfirst hlast hday hle]
    congr 1
    change _ = base + 1 + (Y.year (count year month).1
      + blockStart FiveMonths 5 2 (count year month).2 + (day - 1))
    omega
  · intro jd
    obtain ⟨y, hle, hlt, hparts⟩ := hof jd
    exact ⟨y, _, Y.in_monthOf hle hlt, hparts⟩

end QRomanCalendrical

namespace QJulianCalendar

open QRomanCalendrical

/-- Every fourth year is long. -/
def years : Years where
  year := blockStart FourYears 4 0
  common_le := by
    intro y
    unfold blockStart FourYears
    omega
  le_leap := by
    intro y
    unfold blockStart FourYears
    omega

theorem isLeapYear_iff {year : ℤ} (hzero : year ≠ 0) (hyear : year ≠ Unspecified) :
  isLeapYear year = true ↔ years.Leap year
  := by
  unfold isLeapYear
  rw [if_neg (by omega), qMod_eq (by decide), decide_eq_true_eq]
  change throughZero year % 4 = 0 ↔ (1461 * (throughZero year - 1) + 0) / 4 + 366
    = (1461 * throughZero year + 0) / 4
  omega

theorem julianDayToDate_eq (jd : ℤ) :
  ∃ y, years.year y ≤ jd - (JulianBaseJd + 1) ∧ jd - (JulianBaseJd + 1) < years.year (y + 1)
    ∧ julianDayToDate jd = dateIn y (jd - (JulianBaseJd + 1) - years.year y)
  := by
  have hcode : 4 * (jd - JulianBaseJd) - 1 = blockCode 4 0 (jd - (JulianBaseJd + 1)) := by
    unfold blockCode
    omega
  unfold julianDayToDate
  rw [hcode, qDivMod_eq (show 0 < FourYears by decide)]
  generalize jd - (JulianBaseJd + 1) = x
  obtain ⟨hle, hlt⟩ := (blockCode_ediv_eq_iff (a := FourYears) (b := 4) (c := 0)
    (by decide) (by decide) _ x).mp rfl
  have hday := blockCode_emod_ediv (a := FourYears) (b := 4) (c := 0) (by decide) x
  change years.year _ ≤ x at hle
  change x < years.year _ at hlt
  change _ = x - years.year _ at hday
  have hlong := years.le_leap (blockCode 4 0 x / FourYears)
  refine ⟨blockCode 4 0 x / FourYears, hle, hlt, ?_⟩
  dsimp only
  rw [qDiv_eq (show (0 : ℤ) < 4 by decide), hday]
  exact dateIn_eq (by omega) (by omega) _

/-- The Julian calendar counts days. -/
theorem counts :
  Counts backend years.dates (JulianBaseJd + 1) count civil
  := by
  apply years.counts
  · intro year hzero hyear
    exact isLeapYear_iff hzero hyear
  · rfl
  · intro year month day hzero hfirst hlast hday hle
    change dateToJulianDay year month day = _
    unfold dateToJulianDay
    rw [if_pos (Years.validDay_of_le hzero hfirst hlast (isLeapYear_iff hzero) hday hle),
      yearMonthToYearDays_eq]
    dsimp only
    rw [qDiv_eq (show (0 : ℤ) < 4 by decide)]
    change _ = some ((FourYears * (count year month).1 + 0) / 4 + _ + _ + _)
    rw [Int.add_zero]
  · exact julianDayToDate_eq

end QJulianCalendar

/-! ### Centuries -/

namespace QRomanCalendrical

theorem century_succ (y : ℤ) :
  (y % 100 < 99 ∧ (y + 1) / 100 = y / 100 ∧ (y + 1) % 100 = y % 100 + 1)
    ∨ (y % 100 = 99 ∧ (y + 1) / 100 = y / 100 + 1 ∧ (y + 1) % 100 = 0)
  := by
  omega

/-- The year of a day, from its century and the year in the century. -/
theorem century_year (century : ℤ → ℤ) {inCentury : ℤ → ℤ} {x c r : ℤ} (hr : 0 ≤ r ∧ r < 100)
    (hzero : inCentury 0 = 0) (hend : x < century (c + 1)) (hle : inCentury r ≤ x - century c)
    (hlt : x - century c < inCentury (r + 1)) :
  century ((100 * c + r) / 100) + inCentury ((100 * c + r) % 100) = century c + inCentury r
    ∧ century c + inCentury r ≤ x
    ∧ x < century ((100 * c + r + 1) / 100) + inCentury ((100 * c + r + 1) % 100)
  := by
  rw [show (100 * c + r) / 100 = c by omega, show (100 * c + r) % 100 = r by omega]
  refine ⟨rfl, by omega, ?_⟩
  by_cases h : r = 99
  · rw [show (100 * c + r + 1) / 100 = c + 1 by omega, show (100 * c + r + 1) % 100 = 0 by omega,
      hzero]
    omega
  · rw [show (100 * c + r + 1) / 100 = c by omega,
      show (100 * c + r + 1) % 100 = r + 1 by omega]
    omega

end QRomanCalendrical

namespace QGregorianCalendar

open QRomanCalendrical

/-- One year of four is long, but for three centuries of four. -/
def years : Years where
  year y := blockStart FourCenturies 4 0 (y / 100) + blockStart FourYears 4 0 (y % 100)
  common_le := by
    intro y
    unfold blockStart FourCenturies FourYears
    rcases century_succ y with ⟨_, h_century, h_year⟩ | ⟨h_last, h_century, h_year⟩
    · rw [h_century, h_year]
      omega
    · rw [h_century, h_year, h_last]
      omega
  le_leap := by
    intro y
    unfold blockStart FourCenturies FourYears
    rcases century_succ y with ⟨_, h_century, h_year⟩ | ⟨h_last, h_century, h_year⟩
    · rw [h_century, h_year]
      omega
    · rw [h_century, h_year, h_last]
      omega

theorem year_eq (y : ℤ) :
  years.year y = 365 * y + y / 4 - y / 100 + y / 400
  := by
  change (146097 * (y / 100) + 0) / 4 + (1461 * (y % 100) + 0) / 4 = _
  have hcentury : (146097 * (y / 100) + 0) / 4 = 36524 * (y / 100) + y / 400 := by omega
  have hyear : (1461 * (y % 100) + 0) / 4 = 365 * (y % 100) + y % 100 / 4 := by omega
  have hfour : y / 4 = 25 * (y / 100) + y % 100 / 4 := by omega
  rw [hcentury, hyear, hfour]
  omega

theorem leapTest_iff {year : ℤ} (hzero : year ≠ 0) :
  leapTest year = true ↔ years.Leap year
  := by
  have hdvd : ∀ a b : ℤ, Int.tmod a b = 0 ↔ a % b = 0 := by
    intro a b
    rw [← Int.dvd_iff_tmod_eq_zero, Int.dvd_iff_emod_eq_zero]
  unfold leapTest Years.Leap
  rw [year_eq, year_eq]
  split
  next hyear =>
    subst hyear
    decide
  next =>
    have hthrough : (if year < 1 then year + 1 else year) = throughZero year := by
      unfold throughZero
      split
      · rw [if_pos (by omega)]
      · rw [if_neg (by omega)]
    rw [hthrough]
    generalize throughZero year = c
    simp only [Bool.and_eq_true, Bool.or_eq_true, decide_eq_true_eq, ne_eq, hdvd]
    omega

theorem partsFromJulian_eq (jd : ℤ) :
  ∃ y, years.year y ≤ jd - (BaseJd + 1) ∧ jd - (BaseJd + 1) < years.year (y + 1)
    ∧ partsFromJulian jd = dateIn y (jd - (BaseJd + 1) - years.year y)
  := by
  have hday : jd - BaseJd = jd - (BaseJd + 1) + 1 := by omega
  unfold partsFromJulian
  rw [hday]
  generalize jd - (BaseJd + 1) = x
  dsimp only
  simp only [qDiv_eq (show 0 < FourCenturies by decide), qDiv_eq (show 0 < FourYears by decide),
    qDiv_eq (show 0 < FiveMonths by decide), qDiv_eq (show (0 : ℤ) < 4 by decide),
    qDiv_eq (show (0 : ℤ) < 5 by decide)]
  have hcentury : (4 * (x + 1) - 1) / FourCenturies = blockCode 4 0 x / FourCenturies := by
    congr 1
    unfold blockCode
    omega
  rw [hcentury]
  obtain ⟨hstart, hend⟩ := (blockCode_ediv_eq_iff (a := FourCenturies) (b := 4) (c := 0)
    (by decide) (by decide) _ x).mp rfl
  generalize blockCode 4 0 x / FourCenturies = c at hstart hend ⊢
  have hinCentury : x + 1 - FourCenturies * c / 4 = x - blockStart FourCenturies 4 0 c + 1 := by
    unfold blockStart
    rw [Int.add_zero]
    omega
  rw [hinCentury]
  generalize hd : x - blockStart FourCenturies 4 0 c = d
  have hrange : 0 ≤ d ∧ d < 36525 := by
    unfold blockStart FourCenturies at hstart hend hd
    omega
  have hyear : (4 * (d + 1) - 1) / FourYears = blockCode 4 0 d / FourYears := by
    congr 1
    unfold blockCode
    omega
  rw [hyear]
  have hr : 0 ≤ blockCode 4 0 d / FourYears ∧ blockCode 4 0 d / FourYears < 100 := by
    unfold blockCode FourYears
    omega
  obtain ⟨hle, hlt⟩ := (blockCode_ediv_eq_iff (a := FourYears) (b := 4) (c := 0)
    (by decide) (by decide) _ d).mp rfl
  generalize blockCode 4 0 d / FourYears = r at hr hle hlt ⊢
  have hinYear : d + 1 - FourYears * r / 4 = d - blockStart FourYears 4 0 r + 1 := by
    unfold blockStart
    rw [Int.add_zero]
    omega
  obtain ⟨hfirst, hbefore, hafter⟩ := century_year (blockStart FourCenturies 4 0)
    hr (by decide) hend (hd ▸ hle) (hd ▸ hlt)
  refine ⟨100 * c + r, Int.le_trans (Int.le_of_eq hfirst) hbefore, hafter, ?_⟩
  rw [hinYear, show years.year (100 * c + r) = _ from hfirst,
    show x - (blockStart FourCenturies 4 0 c + blockStart FourYears 4 0 r)
      = d - blockStart FourYears 4 0 r by omega]
  generalize d - blockStart FourYears 4 0 r = e
  have hmonth : (5 * (e + 1) - 3) / FiveMonths = monthOf e := by
    unfold monthOf blockCode
    congr 1
    omega
  rw [hmonth]
  unfold dateIn civil
  by_cases h : monthOf e < 10
  · rw [if_pos h, if_pos h]
    congr 1
    · dsimp only
      rw [Int.add_zero]
    · omega
    · unfold blockStart
      omega
  · rw [if_neg h, if_neg h]
    congr 1
    · dsimp only
      rw [Int.add_sub_cancel]
    · dsimp only
      omega
    · unfold blockStart
      omega

/-- The Gregorian calendar counts days. -/
theorem counts :
  Counts backend years.dates (BaseJd + 1) count civil
  := by
  apply years.counts
  · intro year hzero _
    exact leapTest_iff hzero
  · rfl
  · intro year month day hzero hfirst hlast hday hle
    have hvalid : validParts year month day = true := by
      rw [years.length_eq hfirst hlast] at hle
      have hleap := leapTest_iff hzero
      have hcommon := years.common_le (throughZero year - 1)
      have hlong := years.le_leap (throughZero year - 1)
      rw [Int.sub_add_cancel] at hcommon hlong
      unfold Years.Leap at hleap
      have hlength : day ≤ monthLength month year := by
        unfold monthLength
        rw [if_neg (by omega)]
        by_cases htwo : month = 2
        · rw [if_pos htwo] at hle ⊢
          split
          next h => omega
          next h =>
            have hne := mt hleap.mpr h
            omega
        · rw [if_neg htwo] at hle ⊢
          exact hle
      simp only [validParts, Bool.and_eq_true, decide_eq_true_eq]
      exact ⟨⟨hzero, hday⟩, hlength⟩
    change julianFromParts year month day = _
    unfold julianFromParts
    rw [if_pos hvalid, yearMonthToYearDays_eq, year_eq]
    dsimp only
    rw [qDiv_eq (show (0 : ℤ) < 4 by decide), qDiv_eq (show (0 : ℤ) < 100 by decide),
      qDiv_eq (show (0 : ℤ) < 400 by decide)]
  · exact partsFromJulian_eq

end QGregorianCalendar

namespace QMilankovicCalendar

open QRomanCalendrical

/-- Two centuries of nine are long. -/
def years : Years where
  year y := blockStart NineCenturies 9 6 (y / 100) + blockStart LeapCentury 100 0 (y % 100)
  common_le := by
    intro y
    unfold blockStart NineCenturies LeapCentury
    rcases century_succ y with ⟨_, h_century, h_year⟩ | ⟨h_last, h_century, h_year⟩
    · rw [h_century, h_year]
      omega
    · rw [h_century, h_year, h_last]
      omega
  le_leap := by
    intro y
    unfold blockStart NineCenturies LeapCentury
    rcases century_succ y with ⟨_, h_century, h_year⟩ | ⟨h_last, h_century, h_year⟩
    · rw [h_century, h_year]
      omega
    · rw [h_century, h_year, h_last]
      omega

/-- The first day of a century. -/
theorem century_eq (k : ℤ) :
  (328718 * k + 6) / 9 = 36524 * k + 2 * (k / 9) + (2 * (k % 9) + 6) / 9
  := by
  omega

theorem century_long_iff (k : ℤ) :
  (328718 * (k - 1) + 6) / 9 + 36525 = (328718 * k + 6) / 9 ↔ k % 9 = 2 ∨ k % 9 = 6
  := by
  have hrange : 0 ≤ k % 9 ∧ k % 9 < 9 := by omega
  have hbefore : (328718 * (k - 1) + 6) / 9
      = 36524 * (k - 1) + 2 * (k / 9) + (2 * (k % 9) + 4) / 9 := by omega
  rw [hbefore, century_eq]
  generalize k % 9 = r at hrange
  obtain ⟨hnonneg, hlt⟩ := hrange
  interval_cases r <;> omega

theorem isLeapYear_iff {year : ℤ} (hzero : year ≠ 0) (hyear : year ≠ Unspecified) :
  isLeapYear year = true ↔ years.Leap year
  := by
  have hthrough : (if year ≤ 0 then year + 1 else year) = throughZero year := by
    unfold throughZero
    split
    · rw [if_pos (by omega)]
    · rw [if_neg (by omega)]
  unfold isLeapYear Years.Leap
  rw [if_neg hyear, hthrough]
  generalize throughZero year = c
  dsimp only
  rw [qMod_eq (show (0 : ℤ) < 4 by decide), qDivMod_eq (show (0 : ℤ) < 100 by decide)]
  dsimp only
  rw [qMod_eq (show (0 : ℤ) < 9 by decide)]
  change _ ↔ (328718 * ((c - 1) / 100) + 6) / 9 + (36525 * ((c - 1) % 100) + 0) / 100 + 366
    = (328718 * (c / 100) + 6) / 9 + (36525 * (c % 100) + 0) / 100
  have hsucc := century_succ (c - 1)
  rw [Int.sub_add_cancel] at hsucc
  rcases hsucc with ⟨_, hcentury, hinCentury⟩ | ⟨hlast, hcentury, hinCentury⟩
  · rw [hcentury, if_neg (show ¬ c % 100 = 0 by omega)]
    split
    · simp only [Bool.false_eq_true, false_iff]
      omega
    · simp only [true_iff]
      omega
  · have hlong := century_long_iff (c / 100)
    rw [show c / 100 - 1 = (c - 1) / 100 by omega] at hlong
    rw [hlast, hinCentury, if_neg (by omega), if_pos rfl]
    split
    · simp only [Bool.false_eq_true, false_iff]
      omega
    · simp only [true_iff]
      omega

theorem julianDayToDate_eq (jd : ℤ) :
  ∃ y, years.year y ≤ jd - (MilankovicBaseJd + 1)
    ∧ jd - (MilankovicBaseJd + 1) < years.year (y + 1)
    ∧ julianDayToDate jd = dateIn y (jd - (MilankovicBaseJd + 1) - years.year y)
  := by
  have hcode : 9 * (jd - MilankovicBaseJd) - 7 = blockCode 9 6 (jd - (MilankovicBaseJd + 1)) := by
    unfold blockCode
    omega
  unfold julianDayToDate
  rw [hcode, qDivMod_eq (show 0 < NineCenturies by decide)]
  generalize jd - (MilankovicBaseJd + 1) = x
  obtain ⟨hstart, hend⟩ := (blockCode_ediv_eq_iff (a := NineCenturies) (b := 9) (c := 6)
    (by decide) (by decide) _ x).mp rfl
  dsimp only
  rw [qDiv_eq (show (0 : ℤ) < 9 by decide), blockCode_emod_ediv (show (0 : ℤ) < 9 by decide)]
  generalize blockCode 9 6 x / NineCenturies = c at hstart hend ⊢
  generalize hd : x - blockStart NineCenturies 9 6 c = d
  have hrange : 0 ≤ d ∧ d < 36525 := by
    unfold blockStart NineCenturies at hstart hend hd
    omega
  rw [show 100 * d + 99 = blockCode 100 0 d by rfl, qDivMod_eq (show 0 < LeapCentury by decide)]
  have hr : 0 ≤ blockCode 100 0 d / LeapCentury ∧ blockCode 100 0 d / LeapCentury < 100 := by
    unfold blockCode LeapCentury
    omega
  obtain ⟨hle, hlt⟩ := (blockCode_ediv_eq_iff (a := LeapCentury) (b := 100) (c := 0)
    (by decide) (by decide) _ d).mp rfl
  dsimp only
  rw [qDiv_eq (show (0 : ℤ) < 100 by decide), blockCode_emod_ediv (show (0 : ℤ) < 100 by decide)]
  generalize blockCode 100 0 d / LeapCentury = r at hr hle hlt ⊢
  obtain ⟨hfirst, hbefore, hafter⟩ := century_year (blockStart NineCenturies 9 6)
    hr (by decide) hend (hd ▸ hle) (hd ▸ hlt)
  refine ⟨100 * c + r, Int.le_trans (Int.le_of_eq hfirst) hbefore, hafter, ?_⟩
  rw [show years.year (100 * c + r) = _ from hfirst,
    show x - (blockStart NineCenturies 9 6 c + blockStart LeapCentury 100 0 r)
      = d - blockStart LeapCentury 100 0 r by omega]
  refine dateIn_eq (by omega) ?_ _
  unfold blockStart LeapCentury at hlt ⊢
  omega

/-- The Milankovic calendar counts days. -/
theorem counts :
  Counts backend years.dates (MilankovicBaseJd + 1) count civil
  := by
  apply years.counts
  · intro year hzero hyear
    exact isLeapYear_iff hzero hyear
  · rfl
  · intro year month day hzero hfirst hlast hday hle
    change dateToJulianDay year month day = _
    unfold dateToJulianDay
    rw [if_pos (Years.validDay_of_le hzero hfirst hlast (isLeapYear_iff hzero) hday hle),
      yearMonthToYearDays_eq]
    dsimp only
    rw [qDivMod_eq (show (0 : ℤ) < 100 by decide)]
    dsimp only
    rw [qDiv_eq (show (0 : ℤ) < 9 by decide), qDiv_eq (show (0 : ℤ) < 100 by decide)]
    change _ = some (_ + (LeapCentury * ((count year month).1 % 100) + 0) / 100 + _ + _ + _)
    rw [Int.add_zero]
    rfl
  · exact julianDayToDate_eq

end QMilankovicCalendar

/-! ### The Islamic Civil calendar -/

namespace QIslamicCivilCalendar

/-- The year and the month, counted from 0. -/
def count (year month : ℤ) : ℤ × ℤ :=
  (if 0 < year then year - 1 else year, month - 1)

/-- The year and the month of the calendar. -/
def civil (y m : ℤ) : ℤ × ℤ :=
  (if 0 < y + 1 then y + 1 else y, m + 1)

/-- Eleven years of thirty are long. -/
def dates : DateCount where
  year := blockStart ThirtyYears 30 14
  month := blockStart ElevenMonths 11 5
  months := 12
  month_zero := by decide
  months_pos := by omega
  month_lt := by
    intro m _ _
    unfold blockStart ElevenMonths
    omega
  last_lt := by
    intro y
    unfold blockStart ThirtyYears ElevenMonths
    omega

theorem leap_iff (y : ℤ) :
  dates.year y + 355 = dates.year (y + 1) ↔ ((y + 1) * 11 + 14) % 30 < 11
  := by
  change (10631 * y + 14) / 30 + 355 = (10631 * (y + 1) + 14) / 30 ↔ _
  have hstart : (10631 * y + 14) / 30 = 354 * y + (11 * y + 14) / 30 := by omega
  have hnext : (10631 * (y + 1) + 14) / 30 = 354 * (y + 1) + (11 * y + 25) / 30 := by omega
  rw [hstart, hnext, show (y + 1) * 11 + 14 = 11 * y + 25 by omega]
  omega

theorem year_length (y : ℤ) :
  dates.year y + 354 ≤ dates.year (y + 1) ∧ dates.year (y + 1) ≤ dates.year y + 355
  := by
  change (10631 * y + 14) / 30 + 354 ≤ (10631 * (y + 1) + 14) / 30
    ∧ (10631 * (y + 1) + 14) / 30 ≤ (10631 * y + 14) / 30 + 355
  omega

theorem isLeapYear_iff {year : ℤ} (month : ℤ) (hzero : year ≠ 0) (hyear : year ≠ Unspecified) :
  isLeapYear year = true
    ↔ dates.year (count year month).1 + 355 = dates.year ((count year month).1 + 1)
  := by
  have hcount : (if year < 0 then year + 1 else year) = (count year month).1 + 1 := by
    unfold count
    dsimp only
    split
    · rw [if_neg (by omega)]
    · rw [if_pos (by omega)]
      omega
  unfold isLeapYear
  rw [if_neg hyear, hcount, leap_iff]
  dsimp only
  rw [qMod_eq (show (0 : ℤ) < 30 by decide), decide_eq_true_eq]

theorem length_eq {month : ℤ} (hfirst : 1 ≤ month) (hlast : month ≤ 12) (year : ℤ) :
  dates.length (count year month).1 (count year month).2
    = if month = 12 then
        dates.year ((count year month).1 + 1) - dates.year (count year month).1 - 325
      else if Int.tmod month 2 = 0 then 29 else 30
  := by
  unfold DateCount.length
  by_cases htwelve : month = 12
  · subst htwelve
    rw [if_pos rfl]
    rfl
  · rw [if_neg htwelve]
    change (if month - 1 + 1 < 12 then _ else _) = _
    rw [if_pos (by omega)]
    change (325 * (month - 1 + 1) + 5) / 11 - (325 * (month - 1) + 5) / 11 = _
    interval_cases month <;> first | exact absurd rfl htwelve | decide

/-- The Islamic Civil calendar counts days. -/
theorem counts :
  Counts backend dates EpochJd count civil
  := by
  have hlength : ∀ year month, year ≠ 0 → 1 ≤ month → month ≤ 12 →
      dates.length (count year month).1 (count year month).2 ≤
        QHijriCalendar.daysInMonth isLeapYear month year
      ∧ (year ≠ Unspecified → QHijriCalendar.daysInMonth isLeapYear month year
        = dates.length (count year month).1 (count year month).2) := by
    intro year month hzero hfirst hlast
    rw [length_eq hfirst hlast, QHijriCalendar.daysInMonth,
      if_neg (show ¬ (year = 0 ∨ month < 1 ∨ 12 < month) by omega)]
    have hdays := year_length (count year month).1
    by_cases htwelve : month = 12
    · subst htwelve
      rw [if_pos rfl]
      by_cases hyear : year = Unspecified
      · rw [if_pos ⟨rfl, Or.inl hyear⟩]
        exact ⟨by omega, fun h => absurd hyear h⟩
      · have hleap := isLeapYear_iff 12 hzero hyear
        by_cases h : isLeapYear year = true
        · rw [if_pos ⟨rfl, Or.inr h⟩]
          have hlong := hleap.mp h
          omega
        · rw [if_neg (show ¬ ((12 : ℤ) = 12 ∧ (year = Unspecified ∨ isLeapYear year = true)) from
            fun hall => h (hall.2.resolve_left hyear)), if_pos (by decide)]
          have hshort := mt hleap.mpr h
          omega
    · rw [if_neg htwelve, if_neg (show ¬ (month = 12 ∧ _) from fun hall => htwelve hall.1)]
      exact ⟨le_refl _, fun _ => rfl⟩
  constructor
  · rfl
  · intro year month hzero hfirst hlast
    unfold count civil
    grind
  · intro y m hnonneg hlt
    unfold count civil
    grind
  · intro year month hzero _ hlast
    unfold count nextMonth
    grind
  · intro year month hnot
    exact if_pos hnot
  · intro year month hzero hyear hfirst hlast
    exact (hlength year month hzero hfirst hlast).2 hyear
  · intro year month hzero hfirst hlast
    exact (hlength year month hzero hfirst hlast).1
  · intro year month day hzero hfirst hlast hday hle
    have hvalid : validDay (QHijriCalendar.daysInMonth isLeapYear) year month day = true := by
      have hall := (hlength year month hzero hfirst hlast).1
      rw [validDay, Bool.and_eq_true, decide_eq_true_eq, decide_eq_true_eq]
      omega
    change dateToJulianDay year month day = _
    unfold dateToJulianDay
    rw [if_pos hvalid, qDiv_eq (show (0 : ℤ) < 30 by decide),
      qDiv_eq (show (0 : ℤ) < 11 by decide)]
    congr 1
    change blockStart ThirtyYears 30 14 (count year month).1
      + blockStart ElevenMonths 11 5 (count year month).2 + day + EpochJd - 1
      = EpochJd + (blockStart ThirtyYears 30 14 (count year month).1
        + blockStart ElevenMonths 11 5 (count year month).2 + (day - 1))
    omega
  · intro jd
    change ∃ y m, _ ∧ julianDayToDate jd = _
    unfold julianDayToDate
    have hcode : 30 * (jd - EpochJd) + 15 = blockCode 30 14 (jd - EpochJd) := by
      unfold blockCode
      omega
    rw [hcode, qDivMod_eq (show 0 < ThirtyYears by decide)]
    generalize jd - EpochJd = x
    obtain ⟨hstart, hend⟩ := (blockCode_ediv_eq_iff (a := ThirtyYears) (b := 30) (c := 14)
      (by decide) (by decide) _ x).mp rfl
    dsimp only
    rw [qDiv_eq (show (0 : ℤ) < 30 by decide), blockCode_emod_ediv (show (0 : ℤ) < 30 by decide)]
    generalize blockCode 30 14 x / ThirtyYears = y at hstart hend ⊢
    have hdays := year_length y
    change dates.year y ≤ x at hstart
    change x < dates.year (y + 1) at hend
    generalize hd : x - blockStart ThirtyYears 30 14 y = d
    change x - dates.year y = d at hd
    rw [show 11 * d + 5 = blockCode 11 5 d by rfl, qDivMod_eq (show 0 < ElevenMonths by decide)]
    obtain ⟨hle, hlt⟩ := (blockCode_ediv_eq_iff (a := ElevenMonths) (b := 11) (c := 5)
      (by decide) (by decide) _ d).mp rfl
    have hrange : 0 ≤ blockCode 11 5 d / ElevenMonths
        ∧ blockCode 11 5 d / ElevenMonths < 12 := by
      unfold blockCode ElevenMonths
      omega
    dsimp only
    rw [qDiv_eq (show (0 : ℤ) < 11 by decide), blockCode_emod_ediv (show (0 : ℤ) < 11 by decide)]
    generalize blockCode 11 5 d / ElevenMonths = m at hrange hle hlt ⊢
    refine ⟨y, m, ⟨hstart, hend, hrange.1, hrange.2, ?_, fun _ => ?_⟩, ?_⟩
    · change dates.year y + blockStart ElevenMonths 11 5 m ≤ x
      omega
    · change x < dates.year y + blockStart ElevenMonths 11 5 (m + 1)
      omega
    · unfold civil
      rw [hd]
      dsimp only
      congr 1
      omega

end QIslamicCivilCalendar

/-! ### Dates and Julian days -/

namespace QCalendarBackend

/-- The four calendars that are computed. -/
def calendars : List QCalendarBackend :=
  [QGregorianCalendar.backend, QJulianCalendar.backend, QMilankovicCalendar.backend,
    QIslamicCivilCalendar.backend]

/-- Each of the four calendars counts days. -/
theorem counts_of_mem {calendar : QCalendarBackend} (h : calendar ∈ calendars) :
  ∃ D base count civil, Counts calendar D base count civil
  := by
  simp only [calendars, List.mem_cons, List.not_mem_nil, or_false] at h
  rcases h with rfl | rfl | rfl | rfl
  · exact ⟨_, _, _, _, QGregorianCalendar.counts⟩
  · exact ⟨_, _, _, _, QJulianCalendar.counts⟩
  · exact ⟨_, _, _, _, QMilankovicCalendar.counts⟩
  · exact ⟨_, _, _, _, QIslamicCivilCalendar.counts⟩

/-- A valid date of a specified year and its Julian day determine one another, each Julian day has
a valid date, and the date that follows has the next Julian day. -/
theorem julianDay_bijection {calendar : QCalendarBackend} (h : calendar ∈ calendars) :
  (∀ year month day, year ≠ Unspecified → calendar.isDateValid year month day = true →
    ∃ jd, calendar.dateToJulianDay year month day = some jd
      ∧ calendar.julianDayToDate jd = ⟨year, month, day⟩
      ∧ calendar.isDateValid (calendar.nextDate year month day).year
        (calendar.nextDate year month day).month (calendar.nextDate year month day).day = true
      ∧ calendar.dateToJulianDay (calendar.nextDate year month day).year
        (calendar.nextDate year month day).month (calendar.nextDate year month day).day
        = some (jd + 1))
    ∧ ∀ jd, (calendar.julianDayToDate jd).year ≠ 0
      ∧ calendar.isDateValid (calendar.julianDayToDate jd).year
        (calendar.julianDayToDate jd).month (calendar.julianDayToDate jd).day = true
      ∧ calendar.dateToJulianDay (calendar.julianDayToDate jd).year
        (calendar.julianDayToDate jd).month (calendar.julianDayToDate jd).day = some jd
  := by
  obtain ⟨D, base, count, civil, h_counts⟩ := counts_of_mem h
  constructor
  · intro year month day h_year h_valid
    obtain ⟨jd, h_to, h_of⟩ := h_counts.julianDayToDate_dateToJulianDay h_year h_valid
    exact ⟨jd, h_to, h_of, h_counts.dateToJulianDay_nextDate h_year h_valid h_to⟩
  · intro jd
    obtain ⟨h_valid, h_to⟩ := h_counts.dateToJulianDay_julianDayToDate jd
    exact ⟨(h_counts.month_of_valid h_valid).1, h_valid, h_to⟩

/-- The leap day of the year 2000. -/
theorem julianDay_bijection_leapDay :
  ∃ jd, QGregorianCalendar.backend.dateToJulianDay 2000 2 29 = some jd
    ∧ QGregorianCalendar.backend.julianDayToDate jd = ⟨2000, 2, 29⟩
  := by
  obtain ⟨jd, h_to, h_of, -⟩ := (julianDay_bijection
    (show QGregorianCalendar.backend ∈ calendars from List.mem_cons_self ..)).1 2000 2 29 (by decide) (by decide)
  exact ⟨jd, h_to, h_of⟩

/-- An unspecified year has a leap day, and the least year does not. -/
theorem julianDay_unspecified :
  QJulianCalendar.backend ∈ calendars
    ∧ QJulianCalendar.backend.isDateValid Unspecified 2 29 = true
    ∧ QJulianCalendar.backend.dateToJulianDay Unspecified 2 29 = some (-784366680949)
    ∧ QJulianCalendar.backend.julianDayToDate (-784366680949) ≠ ⟨Unspecified, 2, 29⟩
  := by
  refine ⟨?_, by decide, by decide, by decide⟩
  exact List.mem_cons_of_mem _ (List.mem_cons_self ..)

end QCalendarBackend
