/-
# Workplan.Date.Civil — years, months and days

The Gregorian rule runs without a break before the year 1, and there is a year 0. The day number
of a date counts from 1 March, so that the leap day is the last day of its year: whole years take
365 days and a leap day every 4 years, except every 100, except every 400.

* `dayNumber_civil` — a date's year, month and day lead back to its day number.
* `named_civil` — and they name a day that the calendar has.
* `ofCivil?_civil` — so a date is recovered from them.
-/
import Workplan.Date

namespace Workplan

set_option autoImplicit false

/-- A day named by its year, month and day of the month. -/
structure Civil where
  year : Int
  month : Nat
  day : Nat
  deriving DecidableEq

namespace Civil

def isLeap (year : Int) : Bool :=
  year % 4 = 0 && (year % 100 ≠ 0 || year % 400 = 0)

/-- The number of days of a month; there is no month but the twelve. -/
def monthLength (year : Int) : Nat → Nat
  | 2 => if isLeap year then 29 else 28
  | 4 | 6 | 9 | 11 => 30
  | 1 | 3 | 5 | 7 | 8 | 10 | 12 => 31
  | _ => 0

/-- The month and the day of the month are on the calendar. -/
def Named (c : Civil) : Prop :=
  1 ≤ c.day ∧ c.day ≤ monthLength c.year c.month

instance (c : Civil) : Decidable c.Named := inferInstanceAs (Decidable (_ ∧ _))

/-- Days from 1 March of the year 0 to 1 March of the given year. -/
def yearStart (year : Int) : Int :=
  365 * year + year / 4 - year / 100 + year / 400

/-- Days from 1 March to the start of a month, counted from March as 0. -/
def monthStart (month : Int) : Int :=
  (153 * month + 2) / 5

/-- Days from 1 March of the year 0; January and February belong to the year before. -/
def dayNumber (c : Civil) : Int :=
  if c.month ≤ 2 then yearStart (c.year - 1) + monthStart (c.month + 9) + c.day - 1
  else yearStart c.year + monthStart (c.month - 3) + c.day - 1

end Civil

namespace Date

/-- The date that a year, month and day name, if the calendar has it. -/
def ofCivil? (c : Civil) : Option Date :=
  if c.Named then ofDay? c.dayNumber else none

/-- The year that starts on 1 March and holds the given day number. A span of 400 years has 146097
days, one of 100 years 36524 or one more, one of 4 years 1461 or one fewer. -/
def marchYear (day : Int) : Int :=
  let inEra := day % 146097
  let century := min (inEra / 36524) 3
  let inCentury := inEra - 36524 * century
  let inFour := inCentury % 1461
  400 * (day / 146097) + 100 * century + 4 * (inCentury / 1461) + min (inFour / 365) 3

/-- The year, month and day of a date. -/
def civil (d : Date) : Civil :=
  let year := marchYear d.day
  let inYear := d.day - Civil.yearStart year
  let month := (5 * inYear + 2) / 153
  let day := inYear - Civil.monthStart month + 1
  if month < 10 then ⟨year, (month + 3).toNat, day.toNat⟩
  else ⟨year + 1, (month - 9).toNat, day.toNat⟩

theorem yearStart_split {era century four year : Int} (centuries : 0 ≤ century ∧ century ≤ 3)
    (fours : 0 ≤ four ∧ four ≤ 24) (years : 0 ≤ year ∧ year ≤ 3) :
    Civil.yearStart (400 * era + 100 * century + 4 * four + year) =
      146097 * era + 36524 * century + 1461 * four + 365 * year := by
  have byFour : (400 * era + 100 * century + 4 * four + year) / 4 =
      100 * era + 25 * century + four := by omega
  have byCentury : (400 * era + 100 * century + 4 * four + year) / 100 = 4 * era + century := by
    omega
  have byEra : (400 * era + 100 * century + 4 * four + year) / 400 = era := by omega
  simp only [Civil.yearStart, byFour, byCentury, byEra]
  omega

/-- The last of four years is a leap year, but for the last four of a century, of which only that at
the end of an era is complete. -/
theorem isLeap_fourth {era century four : Int} (fours : 0 ≤ four ∧ four ≤ 24)
    (full : four = 24 → century = 3) :
    Civil.isLeap (400 * era + 100 * century + 4 * four + 3 + 1) = true := by
  have byFour : (400 * era + 100 * century + 4 * four + 3 + 1) % 4 = 0 := by omega
  by_cases lastFour : four = 24
  · have byEra : (400 * era + 100 * century + 4 * four + 3 + 1) % 400 = 0 := by
      rw [full lastFour, lastFour]; omega
    simp [Civil.isLeap, byFour, byEra]
  · have byCentury : (400 * era + 100 * century + 4 * four + 3 + 1) % 100 ≠ 0 := by omega
    simp [Civil.isLeap, byFour, byCentury]

/-- A day number lies in the year that `marchYear` finds for it, which has 365 or 366 days. -/
theorem marchYear_bounds (day : Int) :
    0 ≤ day - Civil.yearStart (marchYear day) ∧
      day - Civil.yearStart (marchYear day) ≤
        if Civil.isLeap (marchYear day + 1) then 365 else 364 := by
  obtain ⟨era, eraDef⟩ : ∃ era, era = day / 146097 := ⟨_, rfl⟩
  obtain ⟨inEra, inEraDef⟩ : ∃ inEra, inEra = day % 146097 := ⟨_, rfl⟩
  obtain ⟨century, centuryDef⟩ : ∃ century, century = min (inEra / 36524) 3 := ⟨_, rfl⟩
  obtain ⟨inCentury, inCenturyDef⟩ : ∃ n, n = inEra - 36524 * century := ⟨_, rfl⟩
  obtain ⟨four, fourDef⟩ : ∃ four, four = inCentury / 1461 := ⟨_, rfl⟩
  obtain ⟨inFour, inFourDef⟩ : ∃ n, n = inCentury % 1461 := ⟨_, rfl⟩
  obtain ⟨year, yearDef⟩ : ∃ year, year = min (inFour / 365) 3 := ⟨_, rfl⟩
  have shape : marchYear day = 400 * era + 100 * century + 4 * four + year := by
    simp only [marchYear, eraDef, centuryDef, fourDef, yearDef, inFourDef, inCenturyDef, inEraDef]
  have centuries : 0 ≤ century ∧ century ≤ 3 := by omega
  have inCenturies : 0 ≤ inCentury ∧ (inCentury ≤ 36523 ∨ century = 3 ∧ inCentury ≤ 36524) := by
    omega
  have fours : 0 ≤ four ∧ four ≤ 24 := by omega
  have inFours : 0 ≤ inFour ∧ inFour ≤ 1460 := by omega
  have years : 0 ≤ year ∧ year ≤ 3 := by omega
  have total : day = 146097 * era + 36524 * century + 1461 * four + inFour := by omega
  have inYear : day - Civil.yearStart (marchYear day) = inFour - 365 * year := by
    rw [shape, yearStart_split centuries fours years]
    omega
  rw [inYear]
  refine ⟨by omega, ?_⟩
  split
  · omega
  · rename_i common
    by_cases leapDay : inFour = 1460
    · have lastYear : year = 3 := by clear total inYear shape common; omega
      have full : four = 24 → century = 3 := by clear total inYear shape common; omega
      rw [shape, lastYear] at common
      exact absurd (isLeap_fourth fours full) common
    · clear total inYear shape common
      omega

/-- Of the days from a 1 March, `monthStart` takes off whole months and leaves days of one. -/
theorem month_bounds {inYear : Int} (inside : 0 ≤ inYear ∧ inYear ≤ 365) :
    0 ≤ (5 * inYear + 2) / 153 ∧ (5 * inYear + 2) / 153 ≤ 11 ∧
      Civil.monthStart ((5 * inYear + 2) / 153) ≤ inYear ∧
      inYear < Civil.monthStart ((5 * inYear + 2) / 153 + 1) := by
  simp only [Civil.monthStart]
  omega

theorem dayNumber_civil (d : Date) : d.civil.dayNumber = d.day := by
  have yearBounds := marchYear_bounds d.day
  have inside : 0 ≤ d.day - Civil.yearStart (marchYear d.day) ∧
      d.day - Civil.yearStart (marchYear d.day) ≤ 365 := by
    refine ⟨yearBounds.1, Int.le_trans yearBounds.2 ?_⟩
    split <;> decide
  have months := month_bounds inside
  unfold civil
  simp only
  split
  · rename_i early
    have month : ((5 * (d.day - Civil.yearStart (marchYear d.day)) + 2) / 153 + 3).toNat > 2 := by
      omega
    have shown : ¬ ((5 * (d.day - Civil.yearStart (marchYear d.day)) + 2) / 153 + 3).toNat ≤ 2 := by
      omega
    simp only [Civil.dayNumber, shown, if_false]
    have same : (((5 * (d.day - Civil.yearStart (marchYear d.day)) + 2) / 153 + 3).toNat : Int) - 3 =
        (5 * (d.day - Civil.yearStart (marchYear d.day)) + 2) / 153 := by omega
    rw [same]
    omega
  · rename_i late
    have shown : ((5 * (d.day - Civil.yearStart (marchYear d.day)) + 2) / 153 - 9).toNat ≤ 2 := by
      omega
    simp only [Civil.dayNumber, shown, if_true]
    have same : (((5 * (d.day - Civil.yearStart (marchYear d.day)) + 2) / 153 - 9).toNat : Int) + 9 =
        (5 * (d.day - Civil.yearStart (marchYear d.day)) + 2) / 153 := by omega
    rw [same, Int.add_sub_cancel]
    omega

/-- A day within a month that is counted from March has a number that the month admits. -/
theorem named_of_march {year inYear month : Int} (months : 0 ≤ month ∧ month ≤ 11)
    (lower : Civil.monthStart month ≤ inYear) (upper : inYear < Civil.monthStart (month + 1))
    (leapDay : inYear ≤ if Civil.isLeap (year + 1) then 365 else 364) :
    (if month < 10 then
      (⟨year, (month + 3).toNat, (inYear - Civil.monthStart month + 1).toNat⟩ : Civil)
    else ⟨year + 1, (month - 9).toNat, (inYear - Civil.monthStart month + 1).toNat⟩).Named := by
  have cases : month = 0 ∨ month = 1 ∨ month = 2 ∨ month = 3 ∨ month = 4 ∨ month = 5 ∨
      month = 6 ∨ month = 7 ∨ month = 8 ∨ month = 9 ∨ month = 10 ∨ month = 11 := by omega
  rcases cases with rfl | rfl | rfl | rfl | rfl | rfl | rfl | rfl | rfl | rfl | rfl | rfl
  case inr.inr.inr.inr.inr.inr.inr.inr.inr.inr.inr =>
    simp only [Civil.monthStart, Civil.Named, Civil.monthLength] at lower upper ⊢
    split at leapDay <;> simp_all <;> omega
  all_goals
    simp [Civil.monthStart, Civil.Named, Civil.monthLength] at lower upper ⊢
    omega

theorem named_civil (d : Date) : d.civil.Named := by
  have yearBounds := marchYear_bounds d.day
  have inside : 0 ≤ d.day - Civil.yearStart (marchYear d.day) ∧
      d.day - Civil.yearStart (marchYear d.day) ≤ 365 := by
    refine ⟨yearBounds.1, Int.le_trans yearBounds.2 ?_⟩
    split <;> decide
  have months := month_bounds inside
  exact named_of_march ⟨months.1, months.2.1⟩ months.2.2.1 months.2.2.2 yearBounds.2

theorem ofCivil?_civil (d : Date) : ofCivil? d.civil = some d := by
  simp only [ofCivil?, named_civil, if_true, dayNumber_civil, ofDay?_day]

end Date

end Workplan
