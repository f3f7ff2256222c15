import BobUI.Corelib.Time.GregorianWeekdays

/-!
# Centuries that match a weekday

`matchCenturyToWeekday` moves a date by whole centuries until it falls on a weekday.  Four centuries
are a whole number of weeks, and each of them begins on another day of the week.
-/

open QRoundingDown QRomanCalendrical Checked
open QCalendar (YearMonthDay)

namespace QGregorianCalendar

/-! ### Dates in other centuries -/

/-- The year of the calendar, of a year that is counted through 0. -/
def inCalendar (y : ℤ) : ℤ :=
  if 0 < y then y else y - 1

theorem throughZero_inCalendar (y : ℤ) :
  throughZero (inCalendar y) = y
  := by
  unfold throughZero inCalendar
  split
  · split
    · omega
    · omega
  · split
    · omega
    · omega

theorem inCalendar_throughZero {year : ℤ} (h : year ≠ 0) :
  inCalendar (throughZero year) = year
  := by
  unfold throughZero inCalendar
  split
  · split
    · omega
    · omega
  · split
    · omega
    · omega

theorem inCalendar_ne_zero (y : ℤ) :
  inCalendar y ≠ 0
  := by
  unfold inCalendar
  split
  · omega
  · omega

variable {dow : ℤ} {parts : YearMonthDay} {y month day : ℤ}

theorem gives_calendarYear_bind_iff {f : ℤ → Checked ℤ} {b : ℤ} (h : InInt y) :
  (calendarYear y >>= f).Gives b ↔ InInt (inCalendar y) ∧ (f (inCalendar y)).Gives b
  := by
  unfold calendarYear inCalendar
  split
  · rw [Checked.pure_bind, and_iff_right h]
  · rw [gives_int_bind_iff]

/-- The month has such a day in the year. -/
def HasDay (y month day : ℤ) : Prop :=
  1 ≤ month ∧ month ≤ 12 ∧ 1 ≤ day
    ∧ day ≤ if month = 2 then if IsLeap y then 29 else 28 else QRomanCalendrical.monthLength month

theorem validParts_iff (y month day : ℤ) :
  validParts (inCalendar y) month day = true ↔ HasDay y month day
  := by
  have hleap := leapTest_iff_isLeap (inCalendar_ne_zero y)
  rw [throughZero_inCalendar] at hleap
  simp only [validParts, Bool.and_eq_true, decide_eq_true_eq, monthLength, hleap]
  unfold HasDay
  have hyear := inCalendar_ne_zero y
  by_cases hmonth : month < 1 ∨ 12 < month
  · rw [if_pos hmonth]
    omega
  · rw [if_neg hmonth]
    omega

/-- Only 29 February depends on the year. -/
theorem hasDay_congr {y' : ℤ} (h : month = 2 → day = 29 → (IsLeap y ↔ IsLeap y')) :
  HasDay y month day ↔ HasDay y' month day
  := by
  unfold HasDay
  by_cases htwo : month = 2
  · rw [if_pos htwo, if_pos htwo]
    have hleap := h htwo
    by_cases hy : IsLeap y
    · rw [if_pos hy]
      by_cases hy' : IsLeap y'
      · rw [if_pos hy']
      · rw [if_neg hy']
        have hday : day ≠ 29 := fun hday => hy' ((hleap hday).mp hy)
        omega
    · rw [if_neg hy]
      by_cases hy' : IsLeap y'
      · rw [if_pos hy']
        have hday : day ≠ 29 := fun hday => hy ((hleap hday).mpr hy')
        omega
      · rw [if_neg hy']
  · rw [if_neg htwo, if_neg htwo]

theorem isLeap_of_hasDay (h : HasDay y 2 29) :
  IsLeap y
  := by
  by_contra hnot
  have hday := h.2.2.2
  rw [if_pos rfl, if_neg hnot] at hday
  omega

/-- The weekday of a day, whether the month has it or not. -/
def weekDay (y month day : ℤ) : ℤ :=
  weekDayOfJulian (dayNumber y month day)

theorem weekDay_eq (y month day : ℤ) :
  weekDay y month day = dayNumber y month day % 7 + 1
  := by
  rw [weekDay, weekDayOfJulian, qMod_eq (by decide)]

theorem fallingOn_eq_some_iff {jd : ℤ} :
  fallingOn dow (inCalendar y) month day = some jd
    ↔ HasDay y month day ∧ weekDay y month day = dow ∧ dayNumber y month day = jd
  := by
  rw [fallingOn, julianFromParts_eq, throughZero_inCalendar]
  by_cases h : HasDay y month day
  · rw [if_pos ((validParts_iff _ _ _).mpr h), and_iff_right h, Option.filter_eq_some_iff,
      Option.some.injEq, decide_eq_true_eq]
    constructor
    · rintro ⟨rfl, hday⟩
      exact ⟨hday, rfl⟩
    · rintro ⟨hday, rfl⟩
      exact ⟨rfl, hday⟩
  · rw [if_neg (mt (validParts_iff _ _ _).mp h)]
    apply iff_of_false
    · exact Option.not_mem_none _
    · exact fun h' => h h'.1

theorem weekDay_cycle (y k month day : ℤ) :
  weekDay (y + 400 * k) month day = weekDay y month day
  := by
  rw [weekDay_eq, weekDay_eq]
  unfold dayNumber
  split
  · rw [show y + 400 * k - 1 = y - 1 + 400 * k by omega, year_add_cycle]
    omega
  · rw [year_add_cycle]
    omega

/-- 29 February of a century is a Tuesday. -/
theorem weekDay_leapCentury (hcentury : y % 100 = 0) (h : IsLeap y) :
  weekDay y 2 29 = 2
  := by
  have hcycle : y = 0 + 400 * (y / 400) := by
    unfold IsLeap at h
    omega
  rw [hcycle, weekDay_cycle]
  decide

/-! ### The steps between centuries -/

/-- The years to the next date that `matchValid` tries. -/
def centuryStep (diff : ℤ) : ℤ :=
  ((qMod 7 diff + 3) / 2 % 4 - 1) * 100

/-- The century, from March on, in its cycle. -/
def centuryMod4 (y month : ℤ) : ℤ :=
  qMod 4 (qDiv 100 (y - if month < 3 then 1 else 0))

/-- A year of another century. -/
theorem year_add_centuries (y k : ℤ) :
  years.year (y + 100 * k) = years.year y + 146097 * (y / 100 + k) / 4 - 146097 * (y / 100) / 4
  := by
  have hcentury : (y + 100 * k) / 100 = y / 100 + k := by omega
  have hyear : (y + 100 * k) % 100 = y % 100 := by omega
  change blockStart FourCenturies 4 0 _ + blockStart FourYears 4 0 _
    = blockStart FourCenturies 4 0 _ + blockStart FourYears 4 0 _ + _ - _
  rw [hcentury, hyear]
  change (146097 * _ + 0) / 4 + _ = (146097 * _ + 0) / 4 + _ + _ - _
  rw [Int.add_zero, Int.add_zero]
  omega

theorem dayNumber_steps (y month day : ℤ) :
  dayNumber (y + 100) month day
      = dayNumber y month day + (if centuryMod4 y month = 3 then 36525 else 36524)
    ∧ dayNumber (y + 200) month day
      = dayNumber y month day + (if 2 ≤ centuryMod4 y month then 73049 else 73048)
    ∧ dayNumber (y + -100) month day
      = dayNumber y month day - (if centuryMod4 y month = 0 then 36525 else 36524)
  := by
  have hyear : ∀ k, (if month < 3 then y + 100 * k - 1 else y + 100 * k)
      = (if month < 3 then y - 1 else y) + 100 * k := by
    intro k
    split
    · omega
    · rfl
  have hmarch : (y - if month < 3 then 1 else 0) = if month < 3 then y - 1 else y := by
    split
    · rfl
    · omega
  unfold dayNumber centuryMod4
  rw [hmarch, qMod_eq (by decide), qDiv_eq (by decide), show y + 100 = y + 100 * 1 by omega,
    show y + 200 = y + 100 * 2 by omega, show y + -100 = y + 100 * -1 by omega, hyear, hyear,
    hyear, year_add_centuries, year_add_centuries, year_add_centuries]
  generalize (if month < 3 then y - 1 else y) = year
  generalize years.year year = start
  generalize year / 100 = century
  split_ifs <;> omega

theorem centuryMod4_bounds (y month : ℤ) :
  0 ≤ centuryMod4 y month ∧ centuryMod4 y month < 4
  := by
  rw [centuryMod4, qMod_eq (by decide)]
  omega

/-- The step that `matchValid` takes for each difference of weekdays. -/
theorem centuryStep_cases {diff : ℤ} (h : diff % 7 ≠ 0) :
  (diff % 7 = 1 ∨ diff % 7 = 2) ∧ centuryStep diff = 100
    ∨ (diff % 7 = 3 ∨ diff % 7 = 4) ∧ centuryStep diff = 200
    ∨ (diff % 7 = 5 ∨ diff % 7 = 6) ∧ centuryStep diff = -100
  := by
  rw [centuryStep, qMod_eq (by decide)]
  omega

/-- A step hits the weekday exactly where the formula says so. -/
theorem step_hits_iff (hfirst : 1 ≤ dow) (hlast : dow ≤ 7) (hne : weekDay y month day ≠ dow) :
  qMod 7 ((weekDay y month day - dow) * 4 + centuryMod4 y month) < 4
    ↔ weekDay (y + centuryStep (weekDay y month day - dow)) month day = dow
  := by
  obtain ⟨hnext, hsecond, hbefore⟩ := dayNumber_steps y month day
  have hcentury := centuryMod4_bounds y month
  rw [qMod_eq (by decide)]
  rw [weekDay_eq] at hne ⊢
  rcases centuryStep_cases (show (dayNumber y month day % 7 + 1 - dow) % 7 ≠ 0 by omega)
    with ⟨hdiff, hstep⟩ | ⟨hdiff, hstep⟩ | ⟨hdiff, hstep⟩
  · rw [hstep, weekDay_eq, hnext]
    split
    · omega
    · omega
  · rw [hstep, weekDay_eq, hsecond]
    split
    · omega
    · omega
  · rw [hstep, weekDay_eq, hbefore]
    split
    · omega
    · omega

/-- No other step hits the weekday. -/
theorem step_unique {step : ℤ} (hfirst : 1 ≤ dow) (hlast : dow ≤ 7)
    (hne : weekDay y month day ≠ dow) (hstep : step = -100 ∨ step = 100 ∨ step = 200)
    (h : weekDay (y + step) month day = dow) :
  step = centuryStep (weekDay y month day - dow)
  := by
  obtain ⟨hnext, hsecond, hbefore⟩ := dayNumber_steps y month day
  have hcentury := centuryMod4_bounds y month
  rw [weekDay_eq] at h hne ⊢
  have hcases := centuryStep_cases (show (dayNumber y month day % 7 + 1 - dow) % 7 ≠ 0 by omega)
  rcases hstep with rfl | rfl | rfl
  · rw [hbefore] at h
    split at h <;> omega
  · rw [hnext] at h
    split at h <;> omega
  · rw [hsecond] at h
    split at h <;> omega

/-! ### Matches -/

/-- The parts are those of 29 February of a century. -/
def LeapDayOfCentury (parts : YearMonthDay) : Prop :=
  parts.month = 2 ∧ parts.day = 29 ∧ throughZero parts.year % 100 = 0

instance : DecidablePred LeapDayOfCentury :=
  fun parts => inferInstanceAs (Decidable
    (parts.month = 2 ∧ parts.day = 29 ∧ throughZero parts.year % 100 = 0))

/-- A valid date with the month, the day and the last two digits of the year, not far from it, falls
on the weekday. -/
def CenturyMatch (parts : YearMonthDay) (dow jd : ℤ) : Prop :=
  ∃ year, InInt year ∧ julianFromParts year parts.month parts.day = some jd
    ∧ weekDayOfJulian jd = dow
    ∧ (throughZero year - throughZero parts.year) % 100 = 0
    ∧ |throughZero year - throughZero parts.year| ≤ if LeapDayOfCentury parts then 400 else 200

theorem centuryMatch_iff {jd : ℤ} :
  CenturyMatch parts dow jd ↔ ∃ k, InInt (inCalendar (throughZero parts.year + 100 * k))
    ∧ fallingOn dow (inCalendar (throughZero parts.year + 100 * k)) parts.month parts.day = some jd
    ∧ -(if LeapDayOfCentury parts then 4 else 2) ≤ k
    ∧ k ≤ if LeapDayOfCentury parts then 4 else 2
  := by
  have hfalling : ∀ year, fallingOn dow year parts.month parts.day = some jd
      ↔ julianFromParts year parts.month parts.day = some jd ∧ weekDayOfJulian jd = dow := by
    intro year
    rw [fallingOn, Option.filter_eq_some_iff, decide_eq_true_eq]
  have hbound : (if LeapDayOfCentury parts then 400 else 200 : ℤ)
      = 100 * if LeapDayOfCentury parts then 4 else 2 := by
    split <;> rfl
  unfold CenturyMatch
  simp only [hfalling, hbound]
  generalize (if LeapDayOfCentury parts then 4 else 2 : ℤ) = bound
  constructor
  · rintro ⟨year, hint, hjd, hday, hmod, habs⟩
    have hzero : year ≠ 0 := by
      rintro rfl
      rw [julianFromParts_eq] at hjd
      cases hjd
    have hyear : inCalendar (throughZero parts.year
        + 100 * ((throughZero year - throughZero parts.year) / 100)) = year := by
      rw [show throughZero parts.year + 100 * ((throughZero year - throughZero parts.year) / 100)
        = throughZero year by omega, inCalendar_throughZero hzero]
    rw [abs_le] at habs
    use (throughZero year - throughZero parts.year) / 100
    rw [hyear]
    exact ⟨hint, ⟨hjd, hday⟩, by omega, by omega⟩
  · rintro ⟨k, hint, ⟨hjd, hday⟩, hlow, hhigh⟩
    refine ⟨_, hint, hjd, hday, ?_, ?_⟩
    · rw [throughZero_inCalendar]
      omega
    · rw [throughZero_inCalendar, abs_le]
      omega

/-- The month has the day in all the years, or the day is 29 February of a century. -/
theorem hasDay_add_centuries (h : ¬LeapDayOfCentury parts) (k : ℤ) :
  HasDay (throughZero parts.year + 100 * k) parts.month parts.day
    ↔ HasDay (throughZero parts.year) parts.month parts.day
  := by
  apply hasDay_congr
  intro hmonth hday
  have hcentury : throughZero parts.year % 100 ≠ 0 := fun hmod => h ⟨hmonth, hday, hmod⟩
  unfold IsLeap
  omega

/-- 29 February of a century falls on no other day than Tuesday. -/
theorem not_centuryMatch_leapDay (h : LeapDayOfCentury parts) (hdow : dow ≠ 2) (jd : ℤ) :
  ¬CenturyMatch parts dow jd
  := by
  obtain ⟨hmonth, hday, hmod⟩ := h
  rw [centuryMatch_iff]
  rintro ⟨k, -, hfalling, -⟩
  rw [fallingOn_eq_some_iff, hmonth, hday] at hfalling
  obtain ⟨hhas, hweekDay, -⟩ := hfalling
  rw [weekDay_leapCentury (by omega) (isLeap_of_hasDay hhas)] at hweekDay
  exact hdow hweekDay.symm

/-- No century matches where the step of the formula does not. -/
theorem not_centuryMatch_of_step (hfirst : 1 ≤ dow) (hlast : dow ≤ 7)
    (hleap : ¬LeapDayOfCentury parts)
    (hne : weekDay (throughZero parts.year) parts.month parts.day ≠ dow)
    (hstep : weekDay (throughZero parts.year
      + centuryStep (weekDay (throughZero parts.year) parts.month parts.day - dow))
      parts.month parts.day ≠ dow) (jd : ℤ) :
  ¬CenturyMatch parts dow jd
  := by
  rw [centuryMatch_iff, if_neg hleap]
  rintro ⟨k, -, hfalling, hlow, hhigh⟩
  rw [fallingOn_eq_some_iff] at hfalling
  obtain ⟨-, hweekDay, -⟩ := hfalling
  have hothers : ∀ step : ℤ, step = -100 ∨ step = 100 ∨ step = 200 →
      weekDay (throughZero parts.year + step) parts.month parts.day ≠ dow := by
    intro step hcases hhit
    rw [step_unique hfirst hlast hne hcases hhit] at hhit
    exact hstep hhit
  generalize hyears : 100 * k = step at hweekDay
  obtain rfl | rfl | rfl | rfl | rfl :
    step = -200 ∨ step = -100 ∨ step = 0 ∨ step = 100 ∨ step = 200 := by omega
  · rw [show throughZero parts.year + -200 = throughZero parts.year + 200 + 400 * -1 by omega,
      weekDay_cycle] at hweekDay
    exact hothers 200 (by omega) hweekDay
  · exact hothers (-100) (by omega) hweekDay
  · rw [Int.add_zero] at hweekDay
    exact hne hweekDay
  · exact hothers 100 (by omega) hweekDay
  · exact hothers 200 (by omega) hweekDay

/-! ### The two branches -/

theorem inInt_of_inCalendar (h : InInt (inCalendar y)) :
  InInt y
  := by
  unfold inCalendar InInt at *
  split at h <;> omega

/-- The date that is found, or `noDate`. -/
def foundDate (dow y month day : ℤ) : ℤ :=
  (fallingOn dow (inCalendar y) month day).getD noDate

theorem centuryStep_mul (diff : ℤ) :
  ∃ k, centuryStep diff = 100 * k
  := ⟨_, Int.mul_comm _ _⟩

/-- Only 29 February of a century may be missing in another century. -/
theorem leapDay_of_missing {k : ℤ} (hhas : HasDay (throughZero parts.year) parts.month parts.day)
    (hne : weekDay (throughZero parts.year) parts.month parts.day ≠ dow)
    (h : ¬HasDay (throughZero parts.year + 100 * k) parts.month parts.day) :
  LeapDayOfCentury parts ∧ dow ≠ 2
  := by
  have hleap : LeapDayOfCentury parts := by
    by_contra hnot
    exact h ((hasDay_add_centuries hnot k).mpr hhas)
  use hleap
  obtain ⟨hmonth, hday, hmod⟩ := hleap
  rw [hmonth, hday] at hhas hne
  rw [weekDay_leapCentury hmod (isLeap_of_hasDay hhas)] at hne
  exact hne.symm

theorem matchValid_gives_iff (hint : InInt parts.year) (hfirst : 1 ≤ dow) (hlast : dow ≤ 7)
    (hhas : HasDay (throughZero parts.year) parts.month parts.day)
    (hne : weekDay (throughZero parts.year) parts.month parts.day ≠ dow) {res : ℤ} :
  let y := throughZero parts.year + centuryStep
    (weekDay (throughZero parts.year) parts.month parts.day - dow)
  (matchValid parts dow (dayNumber (throughZero parts.year) parts.month parts.day)).Gives res
    ↔ (weekDay y parts.month parts.day = dow → InInt (inCalendar y))
      ∧ (if weekDay y parts.month parts.day = dow then foundDate dow y parts.month parts.day
        else noDate) = res
  := by
  have hhits := step_hits_iff hfirst hlast hne
  have hmarch : InInt (throughZero parts.year - if parts.month < 3 then 1 else 0) := by
    unfold throughZero InInt at *
    split <;> split <;> omega
  have hdiff : weekDayOfJulian (dayNumber (throughZero parts.year) parts.month parts.day) - dow
      ≠ 0 := fun h => hne (Int.sub_eq_zero.mp h)
  intro y
  unfold matchValid
  dsimp only
  rw [if_neg hdiff, gives_incrementNegative_bind_iff hint, gives_int_bind_iff,
    and_iff_right hmarch]
  change (if qMod 7 ((weekDay (throughZero parts.year) parts.month parts.day - dow) * 4
    + centuryMod4 (throughZero parts.year) parts.month) < 4 then _ else _ : Checked ℤ).Gives _ ↔ _
  by_cases h : weekDay y parts.month parts.day = dow
  · rw [if_pos (hhits.mpr h), if_pos h, imp_iff_right h]
    change (int y >>= _).Gives res ↔ _
    rw [gives_int_bind_iff]
    by_cases hcal : InInt (inCalendar y)
    · rw [and_iff_right (inInt_of_inCalendar hcal),
        gives_calendarYear_bind_iff (inInt_of_inCalendar hcal)]
      apply and_congr_right
      intro _
      unfold foundDate
      cases hfound : fallingOn dow (inCalendar y) parts.month parts.day with
      | some jd =>
        dsimp only
        rw [gives_pure_iff, Option.getD_some]
      | none =>
        obtain ⟨k, hk⟩ := centuryStep_mul
          (weekDay (throughZero parts.year) parts.month parts.day - dow)
        have hy : y = throughZero parts.year + 100 * k := by rw [← hk]
        have hmissing : ¬HasDay y parts.month parts.day := by
          intro hday
          have hsome := fallingOn_eq_some_iff.mpr ⟨hday, h, rfl⟩
          rw [hfound] at hsome
          cases hsome
        rw [hy] at hmissing
        obtain ⟨⟨hmonth, hday, hmod⟩, hdow⟩ := leapDay_of_missing hhas hne hmissing
        have htmod : Int.tmod y 100 = 0 := by
          rw [← Int.dvd_iff_tmod_eq_zero]
          omega
        dsimp only
        rw [gives_assert_bind_iff, and_iff_right ⟨hmonth, hday, hdow, htmod⟩,
          gives_pure_iff, Option.getD_none]
    · apply iff_of_false
      · rintro ⟨hy, hgives⟩
        exact hcal ((gives_calendarYear_bind_iff hy).mp hgives).1
      · exact fun h' => hcal h'.1
  · rw [if_neg (mt hhits.mp h), if_neg h, gives_pure_iff, and_iff_right]
    exact fun hday => absurd hday h

/-- The answer is a match if there is one. -/
def Answers (parts : YearMonthDay) (dow res : ℤ) : Prop :=
  ((∃ jd, CenturyMatch parts dow jd) → CenturyMatch parts dow res)
    ∧ ((¬∃ jd, CenturyMatch parts dow jd) → res = noDate)

theorem answers_noDate_iff (h : ¬CenturyMatch parts dow noDate) :
  Answers parts dow noDate ↔ ¬∃ jd, CenturyMatch parts dow jd
  := by
  constructor
  · exact fun hanswers hmatch => h (hanswers.1 hmatch)
  · exact fun hnone => ⟨fun hmatch => absurd hmatch hnone, fun _ => rfl⟩

theorem answers_of_match {res : ℤ} (h : CenturyMatch parts dow res) :
  Answers parts dow res
  := ⟨fun _ => h, fun hnone => absurd ⟨res, h⟩ hnone⟩

theorem answers_noDate (h : ∀ jd, ¬CenturyMatch parts dow jd) :
  Answers parts dow noDate
  := ⟨fun ⟨jd, hmatch⟩ => absurd hmatch (h jd), fun _ => rfl⟩

/-- The multiple of 400 years next to a century. -/
def leapCentury (y : ℤ) : ℤ :=
  if y / 100 % 4 = 1 then y - 100 else y + (4 - y / 100 % 4) * 100

theorem matchLeapDay_answers (hint : InInt parts.year) (hmonth : parts.month = 2)
    (hday : parts.day = 29) (hmissing : ¬HasDay (throughZero parts.year) parts.month parts.day) :
  ∃ res, (matchLeapDay parts dow).Gives res ∧ Answers parts dow res
  := by
  have hleap : ¬IsLeap (throughZero parts.year) := by
    intro h
    apply hmissing
    rw [hmonth, hday]
    unfold HasDay
    rw [if_pos rfl, if_pos h]
    decide
  unfold matchLeapDay
  simp only [gives_incrementNegative_bind_iff hint, qDivMod_eq (show (0 : ℤ) < 100 by decide),
    qMod_eq (show (0 : ℤ) < 4 by decide)]
  by_cases hmod : throughZero parts.year % 100 = 0
  · have hcentury : LeapDayOfCentury parts := ⟨hmonth, hday, hmod⟩
    have hclass : throughZero parts.year / 100 % 4 ≠ 0 := by
      unfold IsLeap at hleap
      omega
    have htarget : IsLeap (leapCentury (throughZero parts.year))
        ∧ leapCentury (throughZero parts.year) % 100 = 0
        ∧ InInt (inCalendar (leapCentury (throughZero parts.year))) := by
      have hrange : InInt (throughZero parts.year) := by
        unfold throughZero InInt at *
        split <;> omega
      unfold IsLeap leapCentury inCalendar InInt at *
      split <;> split <;> omega
    obtain ⟨hisLeap, htarget_mod, hcal⟩ := htarget
    have hyear : (if throughZero parts.year / 100 % 4 = 1 then throughZero parts.year - 100
        else throughZero parts.year + (4 - throughZero parts.year / 100 % 4) * 100)
        = leapCentury (throughZero parts.year) := rfl
    have hhas : HasDay (leapCentury (throughZero parts.year)) 2 29 := by
      unfold HasDay
      rw [if_pos rfl, if_pos hisLeap]
      decide
    have htuesday := weekDay_leapCentury htarget_mod hisLeap
    rw [if_pos hmod, hyear]
    simp only [gives_assert_bind_iff, gives_int_bind_iff,
      gives_calendarYear_bind_iff (inInt_of_inCalendar hcal)]
    rw [hmonth, hday]
    by_cases hdow : dow = 2
    · have hfound := fallingOn_eq_some_iff.mpr ⟨hhas, htuesday.trans hdow.symm, rfl⟩
      refine ⟨dayNumber (leapCentury (throughZero parts.year)) 2 29,
        ⟨hclass, inInt_of_inCalendar hcal, hcal, ?_⟩, answers_of_match ?_⟩
      · rw [hfound]
        exact gives_pure_iff.mpr rfl
      · obtain ⟨k, hk, hlow, hhigh⟩ : ∃ k, leapCentury (throughZero parts.year)
            = throughZero parts.year + 100 * k ∧ -4 ≤ k ∧ k ≤ 4 := by
          use (leapCentury (throughZero parts.year) - throughZero parts.year) / 100
          unfold leapCentury
          split <;> omega
        rw [centuryMatch_iff, if_pos hcentury, hmonth, hday]
        exact ⟨k, hk ▸ hcal, hk ▸ hfound, hlow, hhigh⟩
    · have hnone : fallingOn dow (inCalendar (leapCentury (throughZero parts.year))) 2 29
          = none := by
        rw [Option.eq_none_iff_forall_ne_some]
        intro jd hsome
        exact hdow ((fallingOn_eq_some_iff.mp hsome).2.1.symm.trans htuesday)
      refine ⟨noDate, ⟨hclass, inInt_of_inCalendar hcal, hcal, ?_⟩,
        answers_noDate (not_centuryMatch_leapDay hcentury hdow)⟩
      rw [hnone]
      exact gives_assert_bind_iff.mpr ⟨hdow, gives_pure_iff.mpr rfl⟩
  · use noDate
    rw [if_neg hmod, gives_pure_iff]
    use rfl
    apply answers_noDate
    intro jd hmatch
    have hnot : ¬LeapDayOfCentury parts := fun h => hmod h.2.2
    obtain ⟨k, -, hfalling, -⟩ := centuryMatch_iff.mp hmatch
    obtain ⟨hhas, -⟩ := fallingOn_eq_some_iff.mp hfalling
    exact hmissing ((hasDay_add_centuries hnot k).mp hhas)

/-! ### The whole function -/

/-- The year is one of the calendar, and the century with the weekday is one of `int`; or no date
falls on the weekday in the year 0. -/
def MatchInInt (parts : YearMonthDay) (dow : ℤ) : Prop :=
  if parts.year = 0 then
    ¬(parts.month = 2 ∧ parts.day = 29)
      ∧ ∀ year ∈ [-201, -101, -1, 100, 200], fallingOn dow year parts.month parts.day = none
  else validParts parts.year parts.month parts.day = true →
    weekDay (throughZero parts.year) parts.month parts.day ≠ dow →
    ∀ step ∈ [-100, 100, 200],
      weekDay (throughZero parts.year + step) parts.month parts.day = dow →
        InInt (inCalendar (throughZero parts.year + step))

/-- The least number is not the Julian day number of a day near the year 0. -/
theorem dayNumber_ne_noDate (h : HasDay y month day) (hy : -1000 ≤ y) :
  dayNumber y month day ≠ noDate
  := by
  obtain ⟨hfirst, hlast, hday, -⟩ := h
  unfold dayNumber noDate blockStart fromMarch BaseJd LeapDayGregorian1Bce FiveMonths
  split
  · rw [year_eq]
    omega
  · rw [year_eq]
    omega

theorem not_exists_match_year_zero (hzero : parts.year = 0) (hleap : ¬LeapDayOfCentury parts) :
  (¬∃ jd, CenturyMatch parts dow jd)
    ↔ ∀ year ∈ [-201, -101, -1, 100, 200], fallingOn dow year parts.month parts.day = none
  := by
  have hy : throughZero parts.year = 0 := by
    rw [hzero]
    rfl
  simp only [centuryMatch_iff, if_neg hleap, hy, Int.zero_add]
  constructor
  · intro hnone year hyear
    obtain ⟨k, rfl, hlow, hhigh⟩ : ∃ k, inCalendar (100 * k) = year ∧ -2 ≤ k ∧ k ≤ 2 := by
      simp only [List.mem_cons, List.not_mem_nil, or_false] at hyear
      rcases hyear with rfl | rfl | rfl | rfl | rfl
      · exact ⟨-2, by decide⟩
      · exact ⟨-1, by decide⟩
      · exact ⟨0, by decide⟩
      · exact ⟨1, by decide⟩
      · exact ⟨2, by decide⟩
    rw [Option.eq_none_iff_forall_ne_some]
    intro jd hsome
    apply hnone
    refine ⟨jd, k, ?_, hsome, hlow, hhigh⟩
    unfold inCalendar InInt
    split <;> omega
  · rintro hnone ⟨jd, k, -, hsome, hlow, hhigh⟩
    obtain rfl | rfl | rfl | rfl | rfl : k = -2 ∨ k = -1 ∨ k = 0 ∨ k = 1 ∨ k = 2 := by omega
    all_goals
      rw [hnone _ (by decide)] at hsome
      cases hsome

theorem matchCenturyToWeekday_year_zero (hzero : parts.year = 0) :
  (∃ res, (matchCenturyToWeekday parts dow).Gives res ∧ Answers parts dow res)
    ↔ ¬(parts.month = 2 ∧ parts.day = 29)
      ∧ ∀ year ∈ [-201, -101, -1, 100, 200], fallingOn dow year parts.month parts.day = none
  := by
  have hnone : julianFromParts parts.year parts.month parts.day = none := by
    rw [julianFromParts_eq, hzero]
    rfl
  unfold matchCenturyToWeekday
  rw [hnone]
  dsimp only
  by_cases h : parts.month = 2 ∧ parts.day = 29
  · rw [if_pos h]
    apply iff_of_false
    · rintro ⟨res, hgives, -⟩
      unfold matchLeapDay at hgives
      rw [hzero, gives_incrementNegative_bind_iff (by decide)] at hgives
      change (assert _ >>= _).Gives _ at hgives
      exact (gives_assert_bind_iff.mp hgives).1 rfl
    · exact fun h' => h'.1 h
  · rw [if_neg h, and_iff_right h]
    have hleap : ¬LeapDayOfCentury parts := fun h' => h ⟨h'.1, h'.2.1⟩
    have hnoDate : ¬CenturyMatch parts dow noDate := by
      rw [centuryMatch_iff, if_neg hleap, hzero]
      rintro ⟨k, -, hsome, hlow, -⟩
      obtain ⟨hhas, -, heq⟩ := fallingOn_eq_some_iff.mp hsome
      refine dayNumber_ne_noDate hhas ?_ heq
      unfold throughZero
      omega
    rw [← not_exists_match_year_zero hzero hleap, ← answers_noDate_iff hnoDate]
    constructor
    · rintro ⟨res, hgives, hanswers⟩
      rwa [gives_pure_iff.mp hgives]
    · exact fun hanswers => ⟨noDate, gives_pure_iff.mpr rfl, hanswers⟩

theorem centuryStep_mem (hfirst : 1 ≤ dow) (hlast : dow ≤ 7) (hne : weekDay y month day ≠ dow) :
  centuryStep (weekDay y month day - dow) ∈ [-100, 100, 200]
  := by
  rw [weekDay_eq] at hne ⊢
  have hcases := centuryStep_cases (show (dayNumber y month day % 7 + 1 - dow) % 7 ≠ 0 by omega)
  simp only [List.mem_cons, List.not_mem_nil, or_false]
  omega

/-- What `matchValid` gives is the answer, where it gives anything. -/
theorem found_answers (hfirst : 1 ≤ dow) (hlast : dow ≤ 7)
    (hhas : HasDay (throughZero parts.year) parts.month parts.day)
    (hne : weekDay (throughZero parts.year) parts.month parts.day ≠ dow)
    (hy : y = throughZero parts.year + centuryStep
      (weekDay (throughZero parts.year) parts.month parts.day - dow))
    (hcal : weekDay y parts.month parts.day = dow → InInt (inCalendar y)) :
  Answers parts dow (if weekDay y parts.month parts.day = dow
    then foundDate dow y parts.month parts.day else noDate)
  := by
  have hstep := centuryStep_mem hfirst hlast hne
  obtain ⟨k, hk⟩ := centuryStep_mul
    (weekDay (throughZero parts.year) parts.month parts.day - dow)
  have hy' : y = throughZero parts.year + 100 * k := by rw [hy, hk]
  split
  next h =>
    unfold foundDate
    cases hfound : fallingOn dow (inCalendar y) parts.month parts.day with
    | some jd =>
      apply answers_of_match
      rw [hk] at hstep
      simp only [List.mem_cons, List.not_mem_nil, or_false] at hstep
      rw [centuryMatch_iff]
      refine ⟨k, hy' ▸ hcal h, hy' ▸ hfound, ?_, ?_⟩
      · split <;> omega
      · split <;> omega
    | none =>
      have hmissing : ¬HasDay y parts.month parts.day := by
        intro hday
        have hsome := fallingOn_eq_some_iff.mpr ⟨hday, h, rfl⟩
        rw [hfound] at hsome
        cases hsome
      rw [hy'] at hmissing
      obtain ⟨hleap, hdow⟩ := leapDay_of_missing hhas hne hmissing
      exact answers_noDate (not_centuryMatch_leapDay hleap hdow)
  next h =>
    apply answers_noDate
    by_cases hleap : LeapDayOfCentury parts
    · apply not_centuryMatch_leapDay hleap
      obtain ⟨hmonth, hday, hmod⟩ := hleap
      rw [hmonth, hday] at hhas hne
      rw [weekDay_leapCentury hmod (isLeap_of_hasDay hhas)] at hne
      exact hne.symm
    · exact not_centuryMatch_of_step hfirst hlast hleap hne (hy ▸ h)

theorem matchValid_answers_iff (hint : InInt parts.year) (hzero : parts.year ≠ 0)
    (hfirst : 1 ≤ dow) (hlast : dow ≤ 7)
    (hhas : HasDay (throughZero parts.year) parts.month parts.day) :
  (∃ res, (matchValid parts dow
      (dayNumber (throughZero parts.year) parts.month parts.day)).Gives res
      ∧ Answers parts dow res)
    ↔ (weekDay (throughZero parts.year) parts.month parts.day ≠ dow →
      ∀ step ∈ [-100, 100, 200],
        weekDay (throughZero parts.year + step) parts.month parts.day = dow →
          InInt (inCalendar (throughZero parts.year + step)))
  := by
  by_cases heq : weekDay (throughZero parts.year) parts.month parts.day = dow
  · apply iff_of_true _ fun hne => absurd heq hne
    use dayNumber (throughZero parts.year) parts.month parts.day
    constructor
    · unfold matchValid
      dsimp only
      have hdiff : weekDayOfJulian (dayNumber (throughZero parts.year) parts.month parts.day)
          - dow = 0 := Int.sub_eq_zero.mpr heq
      rw [if_pos hdiff, gives_pure_iff]
    · apply answers_of_match
      rw [centuryMatch_iff]
      refine ⟨0, ?_, ?_, ?_, ?_⟩
      · rw [Int.mul_zero, Int.add_zero, inCalendar_throughZero hzero]
        exact hint
      · rw [Int.mul_zero, Int.add_zero]
        exact fallingOn_eq_some_iff.mpr ⟨hhas, heq, rfl⟩
      · split <;> decide
      · split <;> decide
  · rw [imp_iff_right heq]
    simp only [matchValid_gives_iff hint hfirst hlast hhas heq]
    constructor
    · rintro ⟨res, ⟨hcal, -⟩, -⟩ step hstep hhit
      simp only [List.mem_cons, List.not_mem_nil, or_false] at hstep
      have hunique := step_unique hfirst hlast heq hstep hhit
      rw [hunique] at hhit ⊢
      exact hcal hhit
    · intro h
      have hcal := h _ (centuryStep_mem hfirst hlast heq)
      exact ⟨_, ⟨hcal, rfl⟩, found_answers hfirst hlast hhas heq rfl hcal⟩

/-- The answer is right exactly where the year is one of the calendar and the century with the
weekday is one of `int`, or where no date falls on the weekday in the year 0. -/
theorem matchCenturyToWeekday_answers_iff {parts : YearMonthDay} {dow : ℤ}
    (h_int : InInt parts.year) (h_first : 1 ≤ dow) (h_last : dow ≤ 7) :
  (∃ res, (matchCenturyToWeekday parts dow).Gives res ∧ Answers parts dow res)
    ↔ MatchInInt parts dow
  := by
  unfold MatchInInt
  by_cases h_zero : parts.year = 0
  · rw [if_pos h_zero]
    exact matchCenturyToWeekday_year_zero h_zero
  · rw [if_neg h_zero]
    have h_parts := validParts_iff (throughZero parts.year) parts.month parts.day
    rw [inCalendar_throughZero h_zero] at h_parts
    rw [h_parts]
    unfold matchCenturyToWeekday
    rw [julianFromParts_eq]
    by_cases h_has : HasDay (throughZero parts.year) parts.month parts.day
    · rw [if_pos (h_parts.mpr h_has), imp_iff_right h_has]
      exact matchValid_answers_iff h_int h_zero h_first h_last h_has
    · rw [if_neg (mt h_parts.mp h_has)]
      dsimp only
      apply iff_of_true _ fun h => absurd h h_has
      split
      next h_day => exact matchLeapDay_answers h_int h_day.1 h_day.2 h_has
      next h_day =>
        refine ⟨noDate, gives_pure_iff.mpr rfl, answers_noDate ?_⟩
        intro jd h_match
        have h_leap : ¬LeapDayOfCentury parts := fun h' => h_day ⟨h'.1, h'.2.1⟩
        obtain ⟨k, -, h_falling, -⟩ := centuryMatch_iff.mp h_match
        obtain ⟨h_has', -⟩ := fallingOn_eq_some_iff.mp h_falling
        exact h_has ((hasDay_add_centuries h_leap k).mp h_has')

/-- 1 July 2023 is a Saturday; two centuries later it is a Tuesday. -/
theorem matchCenturyToWeekday_answers_july :
  ∃ res, (matchCenturyToWeekday ⟨2023, 7, 1⟩ 2).Gives res ∧ Answers ⟨2023, 7, 1⟩ 2 res
  := by
  apply (@matchCenturyToWeekday_answers_iff ⟨2023, 7, 1⟩ 2 (by decide) (by decide) (by decide)).mpr
  unfold MatchInInt
  decide

/-- 29 February of the year 0 fails an assertion, a date of the last year is moved beyond the years
of `int`, and the same day of the year before 1 January of the year 0, a Saturday, is missed. -/
theorem matchCenturyToWeekday_fails :
  (matchCenturyToWeekday ⟨0, 2, 29⟩ 2).sound = false
    ∧ (matchCenturyToWeekday ⟨2147483647, 7, 1⟩ 6).sound = false
    ∧ matchCenturyToWeekday ⟨0, 1, 1⟩ 6 = ⟨noDate, true⟩
    ∧ CenturyMatch ⟨0, 1, 1⟩ 6 1721060
  := by
  refine ⟨by decide, by decide, by decide, ?_⟩
  use -1
  decide

end QGregorianCalendar
