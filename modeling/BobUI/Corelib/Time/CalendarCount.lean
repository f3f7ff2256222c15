import BobUI.Corelib.Time.Calendars
import BobUI.Library.DateCount

/-!
# Calendars as counts of days

A calendar counts days by years and months when its years without a year 0, and its months, are
those of a count of days, maybe with another first month.  Then the two functions of the calendar
are inverse to one another, and the dates follow one another.
-/

open QCalendar (YearMonthDay Unspecified)

namespace QCalendarBackend

/-- The month after a month; there is no year 0. -/
def nextMonth (year month : ℤ) : ℤ × ℤ :=
  if month < 12 then (year, month + 1) else (if year = -1 then 1 else year + 1, 1)

/-- The date that follows a date, by the month lengths of the calendar. -/
def nextDate (calendar : QCalendarBackend) (year month day : ℤ) : YearMonthDay :=
  if day < calendar.daysInMonth month year then ⟨year, month, day + 1⟩
  else ⟨(nextMonth year month).1, (nextMonth year month).2, 1⟩

/-- The calendar counts the days from `base` on as `D` does.  A date of an unspecified year may
have more days than the month of the least year. -/
structure Counts (calendar : QCalendarBackend) (D : DateCount) (base : ℤ)
    (count civil : ℤ → ℤ → ℤ × ℤ) : Prop where
  months : D.months = 12
  civil_count : ∀ year month, year ≠ 0 → 1 ≤ month → month ≤ 12 →
    civil (count year month).1 (count year month).2 = (year, month)
      ∧ 0 ≤ (count year month).2 ∧ (count year month).2 < 12
  count_civil : ∀ y m, 0 ≤ m → m < 12 →
    count (civil y m).1 (civil y m).2 = (y, m) ∧ (civil y m).1 ≠ 0
      ∧ 1 ≤ (civil y m).2 ∧ (civil y m).2 ≤ 12
  count_next : ∀ year month, year ≠ 0 → 1 ≤ month → month ≤ 12 →
    count (nextMonth year month).1 (nextMonth year month).2
      = if (count year month).2 + 1 < 12 then ((count year month).1, (count year month).2 + 1)
        else ((count year month).1 + 1, 0)
  invalid : ∀ year month, year = 0 ∨ month < 1 ∨ 12 < month → calendar.daysInMonth month year = 0
  length : ∀ year month, year ≠ 0 → year ≠ Unspecified → 1 ≤ month → month ≤ 12 →
    calendar.daysInMonth month year = D.length (count year month).1 (count year month).2
  length_le : ∀ year month, year ≠ 0 → 1 ≤ month → month ≤ 12 →
    D.length (count year month).1 (count year month).2 ≤ calendar.daysInMonth month year
  toJulianDay : ∀ year month day, year ≠ 0 → 1 ≤ month → month ≤ 12 → 0 < day →
    day ≤ D.length (count year month).1 (count year month).2 →
      calendar.dateToJulianDay year month day
        = some (base + D.day (count year month).1 (count year month).2 (day - 1))
  ofJulianDay : ∀ jd, ∃ y m, D.In (jd - base) y m
    ∧ calendar.julianDayToDate jd
      = ⟨(civil y m).1, (civil y m).2, jd - base - D.year y - D.month m + 1⟩

section Counts

variable {calendar : QCalendarBackend} {D : DateCount} {base : ℤ} {count civil : ℤ → ℤ → ℤ × ℤ}

theorem isDateValid_iff {year month day : ℤ} :
  calendar.isDateValid year month day = true ↔ 0 < day ∧ day ≤ calendar.daysInMonth month year
  := by
  rw [isDateValid, validDay, Bool.and_eq_true, decide_eq_true_eq, decide_eq_true_eq]

/-- The year and the month of a valid date. -/
theorem Counts.month_of_valid (h : Counts calendar D base count civil) {year month day : ℤ}
    (hvalid : calendar.isDateValid year month day = true) :
  year ≠ 0 ∧ 1 ≤ month ∧ month ≤ 12
  := by
  rw [isDateValid_iff] at hvalid
  by_contra hnot
  have hzero := h.invalid year month (by omega)
  omega

/-- The parts of a date are found again from its Julian day. -/
theorem Counts.julianDayToDate_dateToJulianDay (h : Counts calendar D base count civil)
    {year month day : ℤ} (hyear : year ≠ Unspecified)
    (hvalid : calendar.isDateValid year month day = true) :
  ∃ jd, calendar.dateToJulianDay year month day = some jd
    ∧ calendar.julianDayToDate jd = ⟨year, month, day⟩
  := by
  obtain ⟨hzero, hfirst, hlast⟩ := h.month_of_valid hvalid
  obtain ⟨hcivil, hnonneg, hlt⟩ := h.civil_count year month hzero hfirst hlast
  rw [isDateValid_iff, h.length year month hzero hyear hfirst hlast] at hvalid
  refine ⟨_, h.toJulianDay year month day hzero hfirst hlast hvalid.1 hvalid.2, ?_⟩
  obtain ⟨y, m, hin, hparts⟩ := h.ofJulianDay
    (base + D.day (count year month).1 (count year month).2 (day - 1))
  have hdate : D.Valid (count year month).1 (count year month).2 (day - 1) :=
    ⟨hnonneg, h.months.symm ▸ hlt, by omega, by omega⟩
  rw [show base + D.day (count year month).1 (count year month).2 (day - 1) - base
    = D.day (count year month).1 (count year month).2 (day - 1) by omega] at hin hparts
  obtain ⟨rfl, rfl⟩ := hdate.mem.unique hin
  rw [hparts, hcivil]
  congr 1
  unfold DateCount.day
  omega

/-- The parts of a Julian day are a valid date, which maps back to it. -/
theorem Counts.dateToJulianDay_julianDayToDate (h : Counts calendar D base count civil) (jd : ℤ) :
  calendar.isDateValid (calendar.julianDayToDate jd).year (calendar.julianDayToDate jd).month
      (calendar.julianDayToDate jd).day = true
    ∧ calendar.dateToJulianDay (calendar.julianDayToDate jd).year
      (calendar.julianDayToDate jd).month (calendar.julianDayToDate jd).day = some jd
  := by
  obtain ⟨y, m, hin, hparts⟩ := h.ofJulianDay jd
  rw [hparts, isDateValid_iff]
  dsimp only
  have hvalid := hin.valid
  obtain ⟨hcount, hzero, hfirst, hlast⟩ :=
    h.count_civil y m hin.month_nonneg (h.months ▸ hin.month_lt)
  have hday := hvalid.day_nonneg
  have hlt := hvalid.day_lt
  constructor
  · have hle := h.length_le _ _ hzero hfirst hlast
    rw [hcount] at hle
    dsimp only at hle
    omega
  · rw [h.toJulianDay _ _ _ hzero hfirst hlast (by omega) (by
      rw [hcount]
      dsimp only
      omega), hcount]
    unfold DateCount.day
    dsimp only
    congr 1
    omega

/-- The date that follows is valid and has the next Julian day. -/
theorem Counts.dateToJulianDay_nextDate (h : Counts calendar D base count civil)
    {year month day jd : ℤ} (hyear : year ≠ Unspecified)
    (hvalid : calendar.isDateValid year month day = true)
    (hjd : calendar.dateToJulianDay year month day = some jd) :
  calendar.isDateValid (calendar.nextDate year month day).year
      (calendar.nextDate year month day).month (calendar.nextDate year month day).day = true
    ∧ calendar.dateToJulianDay (calendar.nextDate year month day).year
      (calendar.nextDate year month day).month (calendar.nextDate year month day).day
      = some (jd + 1)
  := by
  obtain ⟨hzero, hfirst, hlast⟩ := h.month_of_valid hvalid
  obtain ⟨-, hnonneg, hlt⟩ := h.civil_count year month hzero hfirst hlast
  have hlength := h.length year month hzero hyear hfirst hlast
  rw [isDateValid_iff, hlength] at hvalid
  rw [h.toJulianDay year month day hzero hfirst hlast hvalid.1 hvalid.2,
    Option.some.injEq] at hjd
  unfold nextDate
  split
  next hmore =>
    dsimp only
    refine ⟨isDateValid_iff.mpr ⟨by omega, hmore⟩, ?_⟩
    rw [hlength] at hmore
    rw [h.toJulianDay year month (day + 1) hzero hfirst hlast (by omega) (by omega), ← hjd]
    congr 1
    unfold DateCount.day
    omega
  next hend =>
    dsimp only
    rw [hlength] at hend
    obtain rfl : day = D.length (count year month).1 (count year month).2 := by omega
    have hnext : (nextMonth year month).1 ≠ 0 ∧ 1 ≤ (nextMonth year month).2
        ∧ (nextMonth year month).2 ≤ 12 := by
      unfold nextMonth
      split
      · dsimp only
        omega
      · dsimp only
        split
        · omega
        · omega
    have hcount := h.count_next year month hzero hfirst hlast
    have hsome : ∀ y m, count (nextMonth year month).1 (nextMonth year month).2 = (y, m) →
        0 < D.length y m := by
      intro y m heq
      have hpositive := h.civil_count _ _ hnext.1 hnext.2.1 hnext.2.2
      rw [heq] at hpositive
      have hmonths := h.months
      have hle := hpositive.2
      dsimp only at hle
      unfold DateCount.length
      split
      next hm =>
        have hstep := D.month_lt m hle.1 hm
        omega
      next hm =>
        have hstep := D.last_lt y
        obtain rfl : m = D.months - 1 := by omega
        omega
    have hone := hsome _ _ rfl
    have hle := h.length_le _ _ hnext.1 hnext.2.1 hnext.2.2
    refine ⟨isDateValid_iff.mpr ⟨by omega, by omega⟩, ?_⟩
    rw [h.toJulianDay _ _ 1 hnext.1 hnext.2.1 hnext.2.2 (by omega) (by omega), hcount, ← hjd]
    congr 1
    split
    next hm =>
      have hday := D.day_next_month (y := (count year month).1) (m := (count year month).2) (by
        rw [h.months]
        exact hm)
      dsimp only
      rw [Int.sub_self, hday]
      omega
    next hm =>
      have hday := D.day_next_year (count year month).1
      have hlastMonth : (count year month).2 = D.months - 1 := by
        rw [h.months]
        omega
      dsimp only
      rw [Int.sub_self, hday, hlastMonth]
      omega

end Counts

end QCalendarBackend
