import Mathlib.Data.Int.Init
import Rollup.Calendar.Date

/-!
# Counting days

Days are counted one by one: the day after a date is the next of its month, or the first of the next month, or
the first of the next year.  `Elapsed d n` says that a date is reached from 1970-01-01 in `n` such steps, back
where `n` is negative, and the closed form `Date.dayNumber` counts them (`elapsed_iff`).
-/

namespace Rollup.Calendar

namespace Date

/-- The first day of a month. -/
def first (year : Int) (month : Nat) (range : 1 ≤ month ∧ month ≤ 12) : Date :=
  ⟨year, month, 1, range, Nat.le_refl 1, Nat.le_trans (by decide) (daysInMonth_pos year month)⟩

/-- 1970-01-01. -/
def epoch : Date := first 1970 1 (by decide)

/-- The day after a date. -/
def next (d : Date) : Date :=
  if left : d.day < daysInMonth d.year d.month then ⟨d.year, d.month, d.day + 1, d.month_range, by omega, left⟩
  else if left : d.month < 12 then first d.year (d.month + 1) ⟨by omega, left⟩
  else first (d.year + 1) 1 (by decide)

/-- The last day of a month. -/
def last (year : Int) (month : Nat) (range : 1 ≤ month ∧ month ≤ 12) : Date :=
  ⟨year, month, daysInMonth year month, range, Nat.le_trans (by decide) (daysInMonth_pos year month), Nat.le_refl _⟩

theorem next_last (year : Int) {month : Nat} (range : 1 ≤ month ∧ month ≤ 12) (left : month < 12) :
    (last year month range).next = first year (month + 1) ⟨Nat.le_add_left 1 month, left⟩ := by
  simp [next, last, left]

theorem next_december (year : Int) : (last year 12 (by decide)).next = first (year + 1) 1 (by decide) := by
  simp [next, last]

/-! ## The number of a day -/

theorem daysBeforeMonth_succ (year : Int) {month : Nat} (pos : 1 ≤ month) :
    daysBeforeMonth year (month + 1) = daysBeforeMonth year month + daysInMonth year month := by
  obtain ⟨m, rfl⟩ := Nat.exists_eq_add_of_le' pos
  rw [daysBeforeMonth, Nat.add_sub_cancel, List.range_succ, List.foldl_append]
  rfl

/-- December ends where the next year starts. -/
theorem daysBeforeYear_next (year : Int) :
    daysBeforeYear (year + 1) = daysBeforeYear year + (daysBeforeMonth year 12 + daysInMonth year 12 : Nat) := by
  rw [daysBeforeYear_succ]
  cases leap : isLeap year <;> simp [daysBeforeMonth, List.range_succ, daysInMonth, leap]

@[simp]
theorem dayNumber_epoch : epoch.dayNumber = 0 := by decide

@[simp]
theorem dayNumber_next (d : Date) : d.next.dayNumber = d.dayNumber + 1 := by
  rw [next]
  split
  · simp only [dayNumber, monthStart]
    omega
  · next last =>
    have full : d.day = daysInMonth d.year d.month := Nat.le_antisymm d.day_range.2 (Nat.le_of_not_lt last)
    split
    · simp only [dayNumber, monthStart, first, daysBeforeMonth_succ d.year d.month_range.1, full]
      omega
    · next december =>
      have month : d.month = 12 := Nat.le_antisymm d.month_range.2 (Nat.le_of_not_lt december)
      simp only [dayNumber, monthStart, first, daysBeforeYear_next, full, month]
      simp only [daysBeforeMonth, Nat.sub_self, List.range_zero, List.foldl_nil]
      omega

/-! ## Counting -/

/-- A date comes so many days after 1970-01-01. -/
inductive Elapsed : Date → Int → Prop
  | epoch : Elapsed epoch 0
  | next {d : Date} {n : Int} (elapsed : Elapsed d n) : Elapsed d.next (n + 1)
  | previous {d : Date} {n : Int} (elapsed : Elapsed d.next (n + 1)) : Elapsed d n

theorem Elapsed.dayNumber_eq {d : Date} {n : Int} (elapsed : d.Elapsed n) : d.dayNumber = n := by
  induction elapsed with
  | epoch => exact dayNumber_epoch
  | next _ ih => rw [dayNumber_next, ih]
  | previous _ ih =>
    rw [dayNumber_next] at ih
    omega

/-- The number of a date counts the days that it takes to get there. -/
def Counted (d : Date) : Prop := d.Elapsed d.dayNumber

theorem counted_next_iff (d : Date) : d.next.Counted ↔ d.Counted := by
  rw [Counted, dayNumber_next]
  exact ⟨.previous, .next⟩

theorem counted_iff_first (d : Date) : d.Counted ↔ (first d.year d.month d.month_range).Counted := by
  obtain ⟨year, month, day, months, days⟩ := d
  induction day with
  | zero => exact absurd days.1 (by decide)
  | succ day ih =>
    rcases Nat.eq_zero_or_pos day with rfl | pos
    · rfl
    · -- The day before is in the same month, and this one comes next.
      have left : day < daysInMonth year month := days.2
      rw [← ih ⟨pos, Nat.le_of_lt left⟩, ← counted_next_iff ⟨year, month, day, months, pos, Nat.le_of_lt left⟩, next,
        dif_pos left]

theorem counted_first_iff (year : Int) {month : Nat} (range : 1 ≤ month ∧ month ≤ 12) :
    (first year month range).Counted ↔ (first year 1 (by decide)).Counted := by
  induction month with
  | zero => exact absurd range.1 (by decide)
  | succ month ih =>
    rcases Nat.eq_zero_or_pos month with rfl | pos
    · rfl
    · have range' : 1 ≤ month ∧ month ≤ 12 := ⟨pos, Nat.le_of_succ_le range.2⟩
      rw [← ih range', ← next_last year range' range.2, counted_next_iff]
      exact counted_iff_first (last year month range')

theorem counted_year_iff (year : Int) :
    (first (year + 1) 1 (by decide)).Counted ↔ (first year 1 (by decide)).Counted := by
  rw [← counted_first_iff year (show 1 ≤ 12 ∧ 12 ≤ 12 by decide), ← next_december, counted_next_iff]
  exact counted_iff_first (last year 12 (by decide))

theorem counted (d : Date) : d.Counted := by
  rw [counted_iff_first, counted_first_iff]
  induction d.year using Int.inductionOn' (b := 1970) with
  | zero => exact .epoch
  | succ year _ ih => exact (counted_year_iff year).2 ih
  | pred year _ ih =>
    refine (counted_year_iff (year - 1)).1 ?_
    rwa [Int.sub_add_cancel]

theorem elapsed_iff {d : Date} {n : Int} : d.Elapsed n ↔ d.dayNumber = n :=
  ⟨Elapsed.dayNumber_eq, fun number => number ▸ d.counted⟩

end Date

end Rollup.Calendar
