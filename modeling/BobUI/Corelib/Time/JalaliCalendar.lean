import BobUI.Corelib.Time.CalendarDays

/-!
# The Jalali calendar

The calendar of `qjalalicalendar.cpp`.  Its years are spread evenly over cycles of 2820 years, and
the year length is the number of days of a cycle by that of its years, taken exactly.  The year of a
day is estimated by a division that is one too small for the first day of a year, and corrected.
-/

open QRoundingDown QCalendarBackend
open QCalendar (YearMonthDay Unspecified)

namespace QJalaliCalendar

/-! ### The calendar -/

def cycleDays : ℤ := 1029983

def cycleYears : ℤ := 2820

/-- 475/01/01 AP, the start of a cycle. -/
def jalaliEpoch : ℤ := 2121446

def cycle (jdn : ℤ) : ℤ :=
  qDiv cycleDays (jdn - jalaliEpoch)

def cycleStart (cycleNo : ℤ) : ℤ :=
  jalaliEpoch + cycleNo * cycleDays

/-- `qFloor(years * yearLength)`, where `yearLength` is `cycleDays / cycleYears`. -/
def floorDays (years : ℤ) : ℤ :=
  years * cycleDays / cycleYears

/-- `qFloor(days / yearLength)`. -/
def floorYears (days : ℤ) : ℤ :=
  days * cycleYears / cycleDays

def firstDayOfYear (year cycleNo : ℤ) : ℤ :=
  jalaliEpoch + cycleNo * cycleDays + floorDays year

def isLeapYear (year : ℤ) : Bool :=
  if year = Unspecified then false
  else
    let year := if year < 0 then year + 1 else year
    qMod 2820 ((year + 2346) * 683) < 683

def daysInMonth (month year : ℤ) : ℤ :=
  if year = 0 ∨ month < 1 ∨ 12 < month then 0
  else if month < 7 then 31
  else if month < 12 ∨ year = Unspecified ∨ isLeapYear year = true then 30
  else 29

/-- `QCalendarBackend::daysInYear`, where `monthsInYear` is 0 for the year 0 only. -/
def daysInYear (year : ℤ) : ℤ :=
  if year = 0 then 0 else if isLeapYear year then 366 else 365

/-- The days of the first months of a year. -/
def daysBefore (year : ℤ) : (months : ℕ) → ℤ
  | 0 => 0
  | i + 1 => daysBefore year i + daysInMonth (i + 1) year

def dateToJulianDay (year month day : ℤ) : Option ℤ :=
  if validDay daysInMonth year month day then
    let y := year - (if year < 0 then 474 else 475)
    let c := qDiv cycleYears y
    let yearInCycle := y - c * cycleYears
    let dayInYear := day + daysBefore year (month - 1).toNat
    some (firstDayOfYear yearInCycle c + dayInYear - 1)
  else none

/-- The loop that finds the month of a day of a year, before which `left` months are left. -/
def findMonth (year : ℤ) : (left : ℕ) → (month day : ℤ) → ℤ × ℤ
  | 0, month, day => (month, day)
  | left + 1, month, day =>
    let last := daysInMonth month year
    if day ≤ last then (month, day) else findMonth year left (month + 1) (day - last)

def julianDayToDate (jd : ℤ) : YearMonthDay :=
  let c := cycle jd
  let yearInCycle := floorYears (jd - cycleStart c)
  let year := yearInCycle + 475 + c * cycleYears
  let day := jd - firstDayOfYear yearInCycle c + 1
  let (year, day) :=
    if day > daysInYear (if year ≤ 0 then year - 1 else year) then (year + 1, 1) else (year, day)
  let year := if year ≤ 0 then year - 1 else year
  let monthDay := findMonth year 11 1 day
  ⟨year, monthDay.1, monthDay.2⟩

def backend : QCalendarBackend where
  isLeapYear := isLeapYear
  daysInMonth := daysInMonth
  dateToJulianDay := dateToJulianDay
  julianDayToDate := julianDayToDate

/-! ### Years -/

/-- The year and the month, counted from the epoch and from 0. -/
def count (year month : ℤ) : ℤ × ℤ :=
  (year - (if year < 0 then 474 else 475), month - 1)

/-- The year and the month of the calendar. -/
def civil (y m : ℤ) : ℤ × ℤ :=
  (if y + 475 ≤ 0 then y + 475 - 1 else y + 475, m + 1)

/-- The first day of a month: six months of 31 days, and then months of 30. -/
def monthStart (m : ℤ) : ℤ :=
  if m ≤ 6 then 31 * m else 30 * m + 6

theorem monthStart_lt (m : ℤ) (_ : 0 ≤ m) (_ : m + 1 < 12) :
  monthStart m < monthStart (m + 1)
  := by
  unfold monthStart
  omega

theorem lastMonth_lt (y : ℤ) :
  blockStart cycleDays cycleYears 0 y + monthStart (12 - 1)
    < blockStart cycleDays cycleYears 0 (y + 1)
  := by
  unfold blockStart monthStart cycleDays cycleYears
  omega

def dates : DateCount where
  year := blockStart cycleDays cycleYears 0
  month := monthStart
  months := 12
  month_zero := by decide
  months_pos := Int.succ_ofNat_pos 11
  month_lt := monthStart_lt
  last_lt := lastMonth_lt

theorem year_eq (y : ℤ) :
  dates.year y = 365 * y + 683 * y / 2820
  := by
  change (1029983 * y + 0) / 2820 = _
  omega

theorem year_cycle (c y : ℤ) :
  dates.year (y + c * cycleYears) = floorDays y + c * cycleDays
  := by
  rw [year_eq]
  unfold floorDays cycleYears cycleDays
  omega

theorem year_length (y : ℤ) :
  dates.year (y + 1) = dates.year y + if (683 * (y + 1)) % 2820 < 683 then 366 else 365
  := by
  rw [year_eq, year_eq]
  split
  · omega
  · omega

theorem isLeapYear_iff (year month : ℤ) :
  isLeapYear year = true ↔ (683 * ((count year month).1 + 1)) % 2820 < 683
  := by
  unfold isLeapYear count
  dsimp only
  by_cases hyear : year = Unspecified
  · rw [if_pos hyear, hyear]
    decide
  · rw [if_neg hyear, qMod_eq (show (0 : ℤ) < 2820 by decide), decide_eq_true_eq]
    have hshift : ((if year < 0 then year + 1 else year) + 2346) * 683
        = 683 * (year - (if year < 0 then 474 else 475) + 1) + 2820 * 683 := by
      split
      · omega
      · omega
    rw [hshift, Int.add_mul_emod_self_left]

theorem count_civil (y m : ℤ) :
  count (civil y m).1 (civil y m).2 = (y, m) ∧ (civil y m).1 ≠ 0
  := by
  unfold count civil
  grind

/-- The number of days of a year. -/
theorem daysInYear_civil (y m : ℤ) :
  daysInYear (civil y m).1 = dates.year (y + 1) - dates.year y
  := by
  obtain ⟨hcount, hzero⟩ := count_civil y m
  have hleap := isLeapYear_iff (civil y m).1 (civil y m).2
  rw [hcount] at hleap
  rw [daysInYear, if_neg hzero, year_length]
  by_cases h : isLeapYear (civil y m).1 = true
  · rw [if_pos h, if_pos (hleap.mp h)]
    omega
  · rw [if_neg h, if_neg (mt hleap.mpr h)]
    omega

/-- The day of a year that the division finds is in the year before, for the first day of a year,
and there is one too many. -/
theorem estimate {x y : ℤ} (hle : dates.year y ≤ x) (hlt : x < dates.year (y + 1)) :
  floorYears (x - x / cycleDays * cycleDays) + x / cycleDays * cycleYears = y
    ∨ floorYears (x - x / cycleDays * cycleDays) + x / cycleDays * cycleYears = y - 1
      ∧ x = dates.year y
  := by
  have hstart : dates.year y = 1029983 * y / 2820 := by
    rw [year_eq]
    omega
  have hnext : dates.year (y + 1) = 1029983 * (y + 1) / 2820 := by
    rw [year_eq]
    omega
  rw [hstart] at hle ⊢
  rw [hnext] at hlt
  unfold floorYears cycleDays cycleYears
  have hcode : (x - x / 1029983 * 1029983) * 2820 / 1029983 + x / 1029983 * 2820
      = x * 2820 / 1029983 := by
    omega
  rw [hcode]
  omega

/-! ### Months -/

theorem daysInMonth_eq {month year : ℤ} (hzero : year ≠ 0) (hfirst : 1 ≤ month)
    (hlast : month < 12) :
  daysInMonth month year = monthStart month - monthStart (month - 1)
  := by
  unfold daysInMonth monthStart
  rw [if_neg (by omega)]
  split
  · split
    · split
      · omega
      · omega
    · omega
  · rw [if_pos (Or.inl hlast)]
    split
    · omega
    · split
      · omega
      · omega

theorem daysBefore_eq {year : ℤ} (hzero : year ≠ 0) {months : ℕ} (h : months < 12) :
  daysBefore year months = monthStart months
  := by
  induction months with
  | zero => rfl
  | succ i ih =>
    rw [daysBefore, ih (by omega), daysInMonth_eq hzero (by omega) (by omega),
      Int.add_sub_cancel]
    have hcast : ((i + 1 : ℕ) : ℤ) = (i : ℤ) + 1 := rfl
    rw [hcast]
    omega

/-- The month of a day of a year. -/
theorem findMonth_eq {year : ℤ} (hzero : year ≠ 0) {left : ℕ} (hleft : left ≤ 11) {day : ℤ}
    (hday : 1 ≤ day) :
  ∃ m d, findMonth year left (12 - left) day = (m + 1, d) ∧ 0 ≤ m ∧ m < 12 ∧ 1 ≤ d
    ∧ monthStart m + d = monthStart (11 - left) + day
    ∧ (m + 1 < 12 → d ≤ monthStart (m + 1) - monthStart m)
  := by
  induction left generalizing day with
  | zero => exact ⟨11, day, rfl, by decide, by decide, hday, rfl, by omega⟩
  | succ left ih =>
    have hcast : ((left + 1 : ℕ) : ℤ) = (left : ℤ) + 1 := rfl
    have hlength : daysInMonth (12 - ((left + 1 : ℕ) : ℤ)) year
        = monthStart (11 - left) - monthStart (11 - ((left + 1 : ℕ) : ℤ)) := by
      rw [daysInMonth_eq hzero (by omega) (by omega), hcast]
      congr 2
      · omega
      · omega
    rw [findMonth, hlength]
    split
    next hle =>
      refine ⟨11 - ((left + 1 : ℕ) : ℤ), day, ?_, by omega, by omega, hday, rfl, ?_⟩
      · rw [Prod.mk.injEq]
        omega
      · intro _
        have hnext : 11 - ((left + 1 : ℕ) : ℤ) + 1 = 11 - left := by omega
        rw [hnext]
        exact hle
    next hgt =>
      have hmonth : 12 - ((left + 1 : ℕ) : ℤ) + 1 = 12 - left := by omega
      have hleft_day : 1 ≤ day
          - (monthStart (11 - left) - monthStart (11 - ((left + 1 : ℕ) : ℤ))) := by
        omega
      rw [hmonth]
      obtain ⟨m, d, hfind, hnonneg, hlt, hpos, hsum, hle⟩ := ih (by omega) hleft_day
      exact ⟨m, d, hfind, hnonneg, hlt, hpos, by omega, hle⟩

/-- The days of a month are those of the count, except that the last month of an unspecified year
is long. -/
theorem length_eq {month : ℤ} (hfirst : 1 ≤ month) (hlast : month ≤ 12) {year : ℤ}
    (hzero : year ≠ 0) :
  dates.length (count year month).1 (count year month).2 ≤ daysInMonth month year
    ∧ (year ≠ Unspecified →
      daysInMonth month year = dates.length (count year month).1 (count year month).2)
  := by
  by_cases htwelve : month = 12
  · have hleap := isLeapYear_iff year month
    have hlength : dates.length (count year month).1 (count year month).2
        = (if (683 * ((count year month).1 + 1)) % 2820 < 683 then 366 else 365) - 336 := by
      rw [DateCount.length, if_neg, year_length]
      · change _ - monthStart (month - 1) = _
        rw [htwelve]
        unfold monthStart
        omega
      · change ¬ month - 1 + 1 < 12
        omega
    have hdays : daysInMonth month year
        = if year = Unspecified ∨ isLeapYear year = true then 30 else 29 := by
      have hrange : ¬ (year = 0 ∨ month < 1 ∨ 12 < month) := by omega
      have hhalf : ¬ month < 7 := by omega
      have hend : ¬ month < 12 := by omega
      rw [daysInMonth, if_neg hrange, if_neg hhalf]
      simp only [hend, false_or]
    rw [hlength, hdays]
    by_cases h : isLeapYear year = true
    · rw [if_pos (Or.inr h), if_pos (hleap.mp h)]
      omega
    · rw [if_neg (mt hleap.mpr h)]
      split
      next hlong =>
        constructor
        · decide
        · intro hyear
          exact absurd (hlong.resolve_right h) hyear
      · omega
  · have hlength : dates.length (count year month).1 (count year month).2
        = monthStart month - monthStart (month - 1) := by
      rw [DateCount.length, if_pos]
      · change monthStart (month - 1 + 1) - monthStart (month - 1) = _
        rw [Int.sub_add_cancel]
      · change month - 1 + 1 < 12
        omega
    rw [hlength, daysInMonth_eq hzero hfirst (by omega)]
    exact ⟨Int.le_refl _, fun _ => rfl⟩

/-! ### Dates -/

/-- The year that `julianDayToDate` finds, and the day in it. -/
theorem julianDayToDate_eq {jd y : ℤ} (hle : dates.year y ≤ jd - jalaliEpoch)
    (hlt : jd - jalaliEpoch < dates.year (y + 1)) :
  julianDayToDate jd
    = ⟨(civil y 0).1, (findMonth (civil y 0).1 11 1 (jd - jalaliEpoch - dates.year y + 1)).1,
      (findMonth (civil y 0).1 11 1 (jd - jalaliEpoch - dates.year y + 1)).2⟩
  := by
  obtain ⟨x, rfl⟩ : ∃ x, jd = x + jalaliEpoch := ⟨jd - jalaliEpoch, by omega⟩
  rw [Int.add_sub_cancel] at hle hlt ⊢
  have hcycle : cycle (x + jalaliEpoch) = x / cycleDays := by
    rw [cycle, qDiv_eq (by decide), Int.add_sub_cancel]
  have hrest : x + jalaliEpoch - cycleStart (x / cycleDays) = x - x / cycleDays * cycleDays := by
    unfold cycleStart
    omega
  rw [julianDayToDate, hcycle, hrest]
  have hestimate := estimate hle hlt
  generalize hyears : floorYears (x - x / cycleDays * cycleDays) = e at hestimate ⊢
  generalize x / cycleDays = c at hestimate ⊢
  have hfirst : firstDayOfYear e c = jalaliEpoch + dates.year (e + c * cycleYears) := by
    rw [firstDayOfYear, year_cycle]
    omega
  have hcivil : ∀ z, (if z + 475 ≤ 0 then z + 475 - 1 else z + 475) = (civil z 0).1 := by
    intro z
    rfl
  have hyear : e + 475 + c * cycleYears = (e + c * cycleYears) + 475 := by omega
  rw [hfirst, hyear]
  generalize e + c * cycleYears = z at hestimate ⊢
  rw [hcivil, daysInYear_civil]
  have hday : x + jalaliEpoch - (jalaliEpoch + dates.year z) + 1 = x - dates.year z + 1 := by omega
  rw [hday]
  rcases hestimate with rfl | ⟨rfl, rfl⟩
  · rw [if_neg (by omega)]
    dsimp only
    rw [hcivil]
  · rw [Int.sub_add_cancel, if_pos (by omega)]
    have hnext : y - 1 + 475 + 1 = y + 475 := by omega
    dsimp only
    rw [hnext, hcivil, Int.sub_self, Int.zero_add]

/-- The Jalali calendar counts days. -/
theorem counts :
  Counts backend dates jalaliEpoch count civil
  := by
  constructor
  · rfl
  · intro year month hzero hfirst hlast
    unfold count civil
    grind
  · intro y m hnonneg hlt
    unfold count civil
    grind
  · intro year month hzero _ hlast
    unfold count nextMonth
    grind
  · intro year month hnot
    exact if_pos hnot
  · intro year month hzero hyear hfirst hlast
    apply (length_eq hfirst hlast hzero).2 hyear
  · intro year month hzero hfirst hlast
    apply (length_eq hfirst hlast hzero).1
  · intro year month day hzero hfirst hlast hday hle
    have hvalid : validDay daysInMonth year month day = true := by
      have hall := (length_eq hfirst hlast hzero).1
      rw [validDay, Bool.and_eq_true, decide_eq_true_eq, decide_eq_true_eq]
      omega
    change dateToJulianDay year month day = _
    rw [dateToJulianDay, if_pos hvalid]
    dsimp only
    rw [daysBefore_eq hzero (by omega), Int.toNat_of_nonneg (by omega), firstDayOfYear]
    congr 1
    have hcycle := year_cycle (qDiv cycleYears (year - if year < 0 then 474 else 475))
      (year - (if year < 0 then 474 else 475)
        - qDiv cycleYears (year - if year < 0 then 474 else 475) * cycleYears)
    rw [Int.sub_add_cancel] at hcycle
    change _ = jalaliEpoch + (dates.year (year - if year < 0 then 474 else 475)
      + monthStart (month - 1) + (day - 1))
    omega
  · intro jd
    change ∃ y m, _ ∧ julianDayToDate jd = _
    obtain ⟨hle, hlt⟩ := (blockCode_ediv_eq_iff (a := cycleDays) (b := cycleYears) (c := 0)
      (by decide) (by decide) _ (jd - jalaliEpoch)).mp rfl
    generalize blockCode cycleYears 0 (jd - jalaliEpoch) / cycleDays = y at hle hlt
    change dates.year y ≤ jd - jalaliEpoch at hle
    change jd - jalaliEpoch < dates.year (y + 1) at hlt
    have hday : 1 ≤ jd - jalaliEpoch - dates.year y + 1 := by omega
    obtain ⟨m, d, hfind, hnonneg, hm, hpos, hsum, hmonth⟩ :=
      findMonth_eq (count_civil y 0).2 (Nat.le_refl 11) hday
    change findMonth (civil y 0).1 11 1 _ = _ at hfind
    change monthStart m + d = 0 + _ at hsum
    use y, m
    constructor
    · refine ⟨hle, hlt, hnonneg, hm, ?_, ?_⟩
      · change dates.year y + monthStart m ≤ _
        omega
      · intro hnext
        have hd := hmonth hnext
        change _ < dates.year y + monthStart (m + 1)
        omega
    · rw [julianDayToDate_eq hle hlt, hfind]
      have hd : d = jd - jalaliEpoch - dates.year y - dates.month m + 1 := by
        change d = jd - jalaliEpoch - dates.year y - monthStart m + 1
        omega
      rw [← hd]
      rfl

end QJalaliCalendar
