import Olp.Limits.Integer

/-!
# Clock and calendar of the cost scripts

The cost scripts date a request by the server's clock and bound it by calendar
windows: the UTC day, the UTC month and the week from Monday, each with an
identifier that grows with time and the milliseconds left until it ends.
-/

namespace Olp.Limits

/-- A budget window. -/
inductive Period
  | day
  | month
  | week
deriving DecidableEq, Repr

def periods : List Period := [.day, .month, .week]

@[simp] theorem mem_periods (p : Period) : p ∈ periods := by cases p <;> decide

/-- A window's identifier and the time left in it. -/
structure Window where
  id : Nat
  ttl : Nat
deriving DecidableEq, Repr

/-- `DAY_MS`. -/
abbrev dayMs : Nat := 86400000

/-- `days_from_civil`, for dates from 1970 on. -/
def daysFromCivil (year month day : Nat) : Nat :=
  let year := year - if month ≤ 2 then 1 else 0
  let era := year / 400
  let yearOfEra := year - era * 400
  let adjustedMonth := if 2 < month then month - 3 else month + 9
  let dayOfYear := (153 * adjustedMonth + 2) / 5 + day - 1
  let dayOfEra := yearOfEra * 365 + yearOfEra / 4 - yearOfEra / 100 + dayOfYear
  era * 146097 + dayOfEra - 719468

/-- `civil_month` past its first line, which counts the days from March of year 0. -/
def shiftedMonth (shifted : Nat) : Nat × Nat :=
  let era := shifted / 146097
  let dayOfEra := shifted - era * 146097
  let yearOfEra := (dayOfEra - dayOfEra / 1460 + dayOfEra / 36524 - dayOfEra / 146096) / 365
  let year := yearOfEra + era * 400
  let dayOfYear := dayOfEra - (365 * yearOfEra + yearOfEra / 4 - yearOfEra / 100)
  let adjustedMonth := (5 * dayOfYear + 2) / 153
  let month := if adjustedMonth < 10 then adjustedMonth + 3 else adjustedMonth - 9
  (year + if month ≤ 2 then 1 else 0, month)

/-- `civil_month`: the year and the month of a day since 1970. -/
def civilMonth (days : Nat) : Nat × Nat := shiftedMonth (days + 719468)

/-- The window of a period that an instant falls in. -/
def windowAt (nowMs : Nat) : Period → Window
  | .day =>
    let day := nowMs / dayMs
    ⟨day, (day + 1) * dayMs - nowMs⟩
  | .month =>
    let (year, month) := civilMonth (nowMs / dayMs)
    let nextYear := year + if month = 12 then 1 else 0
    let nextMonth := if month = 12 then 1 else month + 1
    ⟨year * 12 + month - 1, daysFromCivil nextYear nextMonth 1 * dayMs - nowMs⟩
  | .week =>
    let week := (nowMs / dayMs + 3) / 7
    ⟨week, (week * 7 + 4) * dayMs - nowMs⟩

/-- `windows`: none when the day or the month has no time left. -/
def windows (nowMs : Nat) : Option (Period → Window) :=
  if (windowAt nowMs .day).ttl < 1 ∨ (windowAt nowMs .month).ttl < 1 then none
  else some (windowAt nowMs)

/-- `current_time`: the override when there is one, otherwise the server's clock,
which must be one that a Lua number counts to exactly. -/
def currentTime (override micros : Nat) : Option Nat :=
  if 0 < override then some override
  else if maxSafeInteger < micros / 1000000 ∨ 9007199254739 < micros / 1000000 then none
  else some (micros / 1000000 * 1000 + micros % 1000000 / 1000)

theorem currentTime_zero {micros now : Nat} (h : currentTime 0 micros = some now) :
    now = micros / 1000 ∧ now < 2 ^ 53 := by
  unfold currentTime at h
  split at h
  · omega
  · split at h
    · simp at h
    · obtain rfl : _ = now := by simpa using h
      omega

variable {nowMs : Nat}

theorem windows_eq_some {w : Period → Window} (h : windows nowMs = some w) :
    w = windowAt nowMs := by
  unfold windows at h
  split at h
  · simp at h
  · simpa using h.symm

theorem windows_ttl_ne_zero {w : Period → Window} (h : windows nowMs = some w) (p : Period) :
    (w p).ttl ≠ 0 := by
  unfold windows at h
  split at h
  · simp at h
  · rename_i hpos
    cases h
    cases p with
    | day => omega
    | month => omega
    | week =>
      simp only [windowAt, dayMs]
      omega

theorem currentTime_le {override micros now : Nat} (hover : override ≤ maxSafeInteger)
    (h : currentTime override micros = some now) : now ≤ maxSafeInteger := by
  unfold currentTime at h
  split at h
  · obtain rfl : override = now := by simpa using h
    exact hover
  · split at h
    · simp at h
    · obtain rfl : _ = now := by simpa using h
      simp only [maxSafeInteger] at *
      omega

theorem shiftedMonth_le (shifted : Nat) :
    (shiftedMonth shifted).1 ≤ 401 * shifted + 1 ∧ (shiftedMonth shifted).2 ≤ 5 * shifted + 5 := by
  unfold shiftedMonth
  dsimp only
  have hera : shifted / 146097 ≤ shifted := Nat.div_le_self _ _
  generalize shifted / 146097 = era at *
  constructor
  · split <;> split <;> omega
  · split <;> omega

theorem windowAt_id_le (h : nowMs ≤ maxSafeInteger) (p : Period) :
    (windowAt nowMs p).id ≤ maxSafeInteger := by
  simp only [maxSafeInteger] at *
  cases p with
  | day | week =>
    simp only [windowAt, dayMs]
    omega
  | month =>
    obtain ⟨hyear, hmonth⟩ := shiftedMonth_le (nowMs / dayMs + 719468)
    simp only [windowAt, civilMonth, dayMs] at *
    omega

end Olp.Limits
