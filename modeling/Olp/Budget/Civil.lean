import Olp.Boundary
import Olp.Limits.Calendar
import Mathlib.Order.SuccPred.Basic

/-!
# Civil dates

Dates are days since 1970-01-01 in the proleptic Gregorian calendar, and months are numbered
`12 * year + month - 1`.  A budget period of each kind has a first date, and the first dates are
adjoint to the number of the period a date falls in.
-/

namespace Olp.Budget

open Olp.Boundary
open Olp.Limits (Period)

/-! ## Months -/

/-- The days before the March of a year, from the March of year 0 on. -/
def yearStart (y : ℤ) : ℤ := 365 * y + y / 4 - y / 100 + y / 400

/-- The year, counted from March, of a day counted from the March of year 0. -/
def yearOf (day : ℤ) : ℤ :=
  let y := 400 * day / 146097
  if day < yearStart y then y - 1 else if day < yearStart (y + 1) then y else y + 1

/-- The first date of a month. -/
def monthStart (m : ℤ) : ℤ :=
  yearStart ((m - 2) / 12) + (153 * ((m - 2) % 12) + 2) / 5 - 719468

/-- The month of a date. -/
def monthOf (date : ℤ) : ℤ :=
  let day := date + 719468
  12 * yearOf day + (5 * (day - yearStart (yearOf day)) + 2) / 153 + 2

example :
  monthStart (12 * 1970) = 0 ∧ monthStart (12 * 2000 + 2) - monthStart (12 * 2000 + 1) = 29 ∧
    monthOf 11016 = 12 * 2000 + 1 ∧ monthOf 11017 = 12 * 2000 + 2 := by decide

def isLeap (y : ℤ) : Bool := y % 4 = 0 ∧ (y % 100 ≠ 0 ∨ y % 400 = 0)

theorem yearStart_succ_eq (y : ℤ) :
    yearStart (y + 1) = yearStart y + 365 + if isLeap (y + 1) then 1 else 0 := by
  unfold yearStart
  split
  all_goals
    next h =>
      simp only [isLeap, decide_eq_true_eq] at h
      omega

theorem yearStart_succ (y : ℤ) :
    yearStart y + 365 ≤ yearStart (y + 1) ∧ yearStart (y + 1) ≤ yearStart y + 366 := by
  rw [yearStart_succ_eq]
  split <;> omega

theorem yearOf_spec (day : ℤ) :
    yearStart (yearOf day) ≤ day ∧ day < yearStart (yearOf day + 1) := by
  have hlow : yearStart (400 * day / 146097 - 1) ≤ day := by
    unfold yearStart
    omega
  have hhigh : day < yearStart (400 * day / 146097 + 1 + 1) := by
    unfold yearStart
    omega
  unfold yearOf
  dsimp only
  split
  · next h => exact ⟨hlow, by rwa [Int.sub_add_cancel]⟩
  · split
    · next h h' => exact ⟨by omega, h'⟩
    · next h h' => exact ⟨by omega, hhigh⟩

/-- The days of a month. -/
def daysIn (y m : ℤ) : ℤ :=
  if m = 2 then (if isLeap y then 29 else 28)
  else if m = 4 ∨ m = 6 ∨ m = 9 ∨ m = 11 then 30 else 31

theorem monthStart_succ_eq (m : ℤ) :
    monthStart (m + 1) = monthStart m + daysIn (m / 12) (m % 12 + 1) := by
  have hy := yearStart_succ_eq ((m - 2) / 12)
  unfold monthStart daysIn
  rcases lt_or_ge ((m - 2) % 12) 11 with h | h
  · have h1 : (m + 1 - 2) / 12 = (m - 2) / 12 := by omega
    have h2 : (m + 1 - 2) % 12 = (m - 2) % 12 + 1 := by omega
    rw [h1, h2, if_neg (by omega)]
    -- the lengths follow `(153 * p + 2) / 5` month by month
    have hp : (m - 2) % 12 = 0 ∨ (m - 2) % 12 = 1 ∨ (m - 2) % 12 = 2 ∨ (m - 2) % 12 = 3 ∨
        (m - 2) % 12 = 4 ∨ (m - 2) % 12 = 5 ∨ (m - 2) % 12 = 6 ∨ (m - 2) % 12 = 7 ∨
        (m - 2) % 12 = 8 ∨ (m - 2) % 12 = 9 ∨ (m - 2) % 12 = 10 := by omega
    rcases hp with hp | hp | hp | hp | hp | hp | hp | hp | hp | hp | hp <;>
      rw [hp] <;> split <;> omega
  · have h1 : (m + 1 - 2) / 12 = (m - 2) / 12 + 1 := by omega
    have h2 : (m + 1 - 2) % 12 = 0 := by omega
    have h3 : (m - 2) % 12 = 11 := by omega
    have h4 : m / 12 = (m - 2) / 12 + 1 := by omega
    rw [h1, h2, h3, h4, if_pos (by omega), hy]
    split <;> omega

theorem monthStart_succ (m : ℤ) : monthStart m + 28 ≤ monthStart (m + 1) := by
  rw [monthStart_succ_eq, daysIn]
  split_ifs <;> omega

theorem monthStart_strictMono : StrictMono monthStart :=
  strictMono_int_of_lt_succ fun m => by
    have := monthStart_succ m
    omega

theorem monthOf_spec (date : ℤ) :
    monthStart (monthOf date) ≤ date ∧ date < monthStart (monthOf date + 1) := by
  obtain ⟨hlow, hhigh⟩ := yearOf_spec (date + 719468)
  have hy := yearStart_succ (yearOf (date + 719468))
  unfold monthOf monthStart
  dsimp only
  generalize yearOf (date + 719468) = y at *
  -- `p` is the month of the year, counted from March
  obtain ⟨p, hp⟩ : ∃ p, p = (5 * (date + 719468 - yearStart y) + 2) / 153 := ⟨_, rfl⟩
  rw [← hp]
  have h1 : (12 * y + p + 2 - 2) / 12 = y := by omega
  have h2 : (12 * y + p + 2 - 2) % 12 = p := by omega
  rw [h1, h2]
  refine ⟨by omega, ?_⟩
  rcases lt_or_ge p 11 with h | h
  · have h3 : (12 * y + p + 2 + 1 - 2) / 12 = y := by omega
    have h4 : (12 * y + p + 2 + 1 - 2) % 12 = p + 1 := by omega
    rw [h3, h4]
    omega
  · have h3 : (12 * y + p + 2 + 1 - 2) / 12 = y + 1 := by omega
    have h4 : (12 * y + p + 2 + 1 - 2) % 12 = 0 := by omega
    rw [h3, h4]
    omega

/-! ## Periods -/

/-- `date_trunc(kind, …)::date`: the first date of the period of a date.  Weeks start on Monday;
day 0 is a Thursday. -/
def dateTrunc : Period → ℤ → ℤ
  | .day, date => date
  | .week, date => date - (date + 3) % 7
  | .month, date => monthStart (monthOf date)

/-- `next_date`.  Adding a month keeps the day of the month where the next month has it. -/
def nextDate : Period → ℤ → ℤ
  | .day, date => date + 1
  | .week, date => date + 7
  | .month, date =>
    let next := monthStart (monthOf date + 1)
    next + min (date - monthStart (monthOf date)) (monthStart (monthOf date + 2) - next - 1)

/-- The number of the period of a date. -/
def periodOf : Period → ℤ → ℤ
  | .day, date => date
  | .week, date => (date + 3) / 7
  | .month, date => monthOf date

/-- The first date of a period. -/
def periodStart : Period → ℤ → ℤ
  | .day, i => i
  | .week, i => 7 * i - 3
  | .month, i => monthStart i

variable (kind : Period)

theorem periodStart_strictMono : StrictMono (periodStart kind) := by
  cases kind with
  | day => exact strictMono_id
  | week => intro i j h; simp only [periodStart]; omega
  | month => exact monthStart_strictMono

theorem periodStart_gc : GaloisConnection (periodStart kind) (periodOf kind) := by
  refine galoisConnection_of_strictMono (periodStart_strictMono kind) fun date => ?_
  cases kind with
  | day | week => simp only [periodStart, periodOf]; omega
  | month => exact monthOf_spec date

theorem dateTrunc_eq (date : ℤ) : dateTrunc kind date = periodStart kind (periodOf kind date) := by
  cases kind with
  | day => rfl
  | week => simp only [dateTrunc, periodStart, periodOf]; omega
  | month => rfl

theorem periodOf_periodStart (i : ℤ) : periodOf kind (periodStart kind i) = i := by
  refine (mem_interval_iff (periodStart_gc kind)).mp ⟨le_rfl, ?_⟩
  exact periodStart_strictMono kind (by omega)

theorem nextDate_periodStart (i : ℤ) :
    nextDate kind (periodStart kind i) = periodStart kind (i + 1) := by
  cases kind with
  | day => rfl
  | week => simp only [nextDate, periodStart]; omega
  | month =>
    have h : monthOf (monthStart i) = i := periodOf_periodStart .month i
    have hlen := monthStart_succ (i + 1)
    rw [show i + 1 + 1 = i + 2 by omega] at hlen
    simp only [nextDate, periodStart, h, sub_self]
    rw [min_eq_left (by omega), add_zero]

end Olp.Budget
