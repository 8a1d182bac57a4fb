/-!
# Dates

Dates of the proleptic Gregorian calendar, which has a year 0 and negative years before it.
`Date.dayNumber` counts whole days from 1970-01-01, negative before it.
-/

namespace Rollup.Calendar

/-- Whether a year has a 29th of February. -/
def isLeap (year : Int) : Bool := year % 4 == 0 && (year % 100 != 0 || year % 400 == 0)

/-- The number of days in a month, January being 1. -/
def daysInMonth (year : Int) (month : Nat) : Nat :=
  if month = 2 then (if isLeap year then 29 else 28)
  else if month = 4 ∨ month = 6 ∨ month = 9 ∨ month = 11 then 30
  else 31

/-- A day of the calendar. -/
structure Date where
  year : Int
  month : Nat
  day : Nat
  month_range : 1 ≤ month ∧ month ≤ 12
  day_range : 1 ≤ day ∧ day ≤ daysInMonth year month
deriving Repr, DecidableEq

namespace Date

/-- The date with these parts, if the calendar has it. -/
def ofParts? (year : Int) (month day : Nat) : Option Date :=
  if hm : 1 ≤ month ∧ month ≤ 12 then
    if hd : 1 ≤ day ∧ day ≤ daysInMonth year month then some ⟨year, month, day, hm, hd⟩ else none
  else none

/-- The number of days from the start of year 0 to the start of a year.  Each of the years between
has 365 days, and one more if it is a leap year. -/
def daysBeforeYear (year : Int) : Int :=
  365 * year + (year + 3) / 4 - (year + 99) / 100 + (year + 399) / 400

/-- The number of days of a year before a month. -/
def daysBeforeMonth (year : Int) (month : Nat) : Nat :=
  (List.range (month - 1)).foldl (fun days i => days + daysInMonth year (i + 1)) 0

/-- The number of days from 1970-01-01 to the first day of the month. -/
def monthStart (d : Date) : Int :=
  daysBeforeYear d.year + daysBeforeMonth d.year d.month - 719528

/-- The number of days from 1970-01-01 to the first day of the next month. -/
def nextMonthStart (d : Date) : Int := d.monthStart + daysInMonth d.year d.month

/-- The number of days from 1970-01-01. -/
def dayNumber (d : Date) : Int := d.monthStart + (d.day - 1)

end Date

theorem daysInMonth_pos (year : Int) (month : Nat) : 28 ≤ daysInMonth year month := by
  rw [daysInMonth]
  split
  · split <;> omega
  · split <;> omega

/-- A year has 365 days, and a leap year one more. -/
theorem Date.daysBeforeYear_succ (year : Int) :
    Date.daysBeforeYear (year + 1) =
      Date.daysBeforeYear year + (if isLeap year then 366 else 365) := by
  simp only [Date.daysBeforeYear, isLeap, Bool.and_eq_true, Bool.or_eq_true, beq_iff_eq, bne_iff_ne]
  split <;> omega

end Rollup.Calendar
