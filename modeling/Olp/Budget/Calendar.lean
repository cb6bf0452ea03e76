import Olp.Budget.Civil

/-!
# Civil windows of a calendar

A calendar is a location, which is its offset from UTC at each second.  The day, the week and the
month of an instant are windows between first instants of civil dates, and the first instant of a
date is searched for within two days of the same date in UTC: a midnight may be missing or come
twice, and a whole date may be skipped.

Instants are nanoseconds since 1970, and a date is the number of days since 1970-01-01.
-/

namespace Olp.BudgetCalendar

open Olp.Boundary Olp.Budget
open Olp.Limits (Period)

def second : ℤ := 1000000000

/-! ## Dates -/

def year (d : ℤ) : ℤ := monthOf d / 12

def month (d : ℤ) : ℤ := monthOf d % 12 + 1

def day (d : ℤ) : ℤ := d - monthStart (monthOf d) + 1

/-- `time.Date`, which takes months and days beyond the end over to the next ones. -/
def date (y m d : ℤ) : ℤ := monthStart (12 * y + (m - 1)) + (d - 1)

/-- `AddDate`. -/
def addDate (d years months days : ℤ) : ℤ :=
  date (year d + years) (month d + months) (day d + days)

/-- `Weekday`, from Sunday on; day 0 is a Thursday. -/
def weekday (d : ℤ) : ℤ := (d + 4) % 7

def dateNumber (d : ℤ) : ℤ := year d * 10000 + month d * 100 + day d

theorem year_month (d : ℤ) : 12 * year d + (month d - 1) = monthOf d := by
  unfold year month
  omega

theorem date_eq (d : ℤ) : date (year d) (month d) (day d) = d := by
  rw [date, year_month, day]
  omega

theorem addDate_days (d n : ℤ) : addDate d 0 0 n = d + n := by
  have h := date_eq d
  simp only [date, addDate, add_zero] at *
  omega

theorem addDate_month (m : ℤ) : addDate (monthStart m) 0 1 0 = monthStart (m + 1) := by
  have h : monthOf (monthStart m) = m := periodOf_periodStart .month m
  have hm := year_month (monthStart m)
  rw [addDate, date, day, h, add_zero, add_zero, sub_self, zero_add, sub_self, add_zero]
  congr 1
  omega

theorem day_bounds (d : ℤ) : 1 ≤ day d ∧ day d ≤ 31 := by
  obtain ⟨hlow, hhigh⟩ := monthOf_spec d
  have hlen : daysIn (monthOf d / 12) (monthOf d % 12 + 1) ≤ 31 := by
    unfold daysIn
    split
    · split <;> omega
    · split <;> omega
  rw [monthStart_succ_eq] at hhigh
  unfold day
  omega

theorem dateNumber_strictMono : StrictMono dateNumber := by
  intro d e h
  have hd := day_bounds d
  have he := day_bounds e
  have hmonth : monthOf d ≤ monthOf e := (periodStart_gc .month).monotone_u h.le
  unfold dateNumber year month
  rcases hmonth.eq_or_lt with heq | hlt
  · unfold day at *
    rw [← heq] at *
    omega
  · omega

theorem dateNumber_lt {d e : ℤ} : dateNumber d < dateNumber e ↔ d < e :=
  dateNumber_strictMono.lt_iff_lt

/-! ## Locations and windows -/

/-- A location: whether it is `time.UTC`, and the seconds it is ahead of UTC at each second. -/
structure Location where
  utc : Bool
  offset : ℤ → ℤ
  offset_utc : utc = true → ∀ s, offset s = 0

def Location.UTC : Location := ⟨true, fun _ => 0, fun _ _ => rfl⟩

def Location.dateAt (l : Location) (s : ℤ) : ℤ := (s + l.offset s) / 86400

structure Calendar where
  location : Option Location

structure Window where
  start : ℤ
  stop : ℤ
  deriving DecidableEq, Repr

structure Windows where
  day : Window
  week : Window
  month : Window
  deriving DecidableEq, Repr

/-- `boundary`: the first instant of a civil date. -/
def boundary (d : ℤ) (l : Location) : ℤ :=
  if l.utc then d * 86400 * second
  else
    let target := dateNumber d
    bisect (fun mid => dateNumber (l.dateAt mid) < target)
      (d * 86400 - 48 * 3600) (d * 86400 + 48 * 3600) * second

def makeWindow (l : Location) (start stop : ℤ) : Window := ⟨boundary start l, boundary stop l⟩

@[simp] theorem makeWindow_start (l : Location) (a b : ℤ) :
    (makeWindow l a b).start = boundary a l := rfl

@[simp] theorem makeWindow_stop (l : Location) (a b : ℤ) :
    (makeWindow l a b).stop = boundary b l := rfl

def Calendar.loc (c : Calendar) : Location := c.location.getD .UTC

/-- `Calendar.Windows`. -/
def Calendar.windows (c : Calendar) (x : ℤ) : Windows :=
  let l := c.loc
  let civil := l.dateAt (x / second)
  let d := date (year civil) (month civil) (day civil)
  let monday := addDate d 0 0 (Int.tmod (-(weekday d + 6)) 7)
  let first := date (year civil) (month civil) 1
  { day := makeWindow l d (addDate d 0 0 1)
    week := makeWindow l monday (addDate monday 0 0 7)
    month := makeWindow l first (addDate first 0 1 0) }

/-- The window of a kind. -/
def Windows.get (w : Windows) : Period → Window
  | .day => w.day
  | .week => w.week
  | .month => w.month

/-- The window of an instant runs from the first day of its period to the first of the next. -/
theorem Calendar.windows_get (c : Calendar) (x : ℤ) (kind : Period) :
    (c.windows x).get kind =
      makeWindow c.loc (periodStart kind (periodOf kind (c.loc.dateAt (x / second))))
        (periodStart kind (periodOf kind (c.loc.dateAt (x / second)) + 1)) := by
  unfold Calendar.windows
  dsimp only
  rw [date_eq]
  generalize c.loc.dateAt (x / second) = d
  cases kind with
  | day => rw [Windows.get, addDate_days]; rfl
  | week =>
    have h : Int.tmod (-(weekday d + 6)) 7 = -((d + 3) % 7) := by
      have hpos : 0 ≤ weekday d + 6 := by unfold weekday; omega
      rw [Int.neg_tmod, Int.tmod_eq_emod_of_nonneg hpos, weekday]
      omega
    have h1 : d + -((d + 3) % 7) = 7 * ((d + 3) / 7) - 3 := by omega
    have h2 : 7 * ((d + 3) / 7) - 3 + 7 = 7 * ((d + 3) / 7 + 1) - 3 := by omega
    simp only [Windows.get, h, addDate_days, h1, h2]
    rfl
  | month =>
    have h : date (year d) (month d) 1 = monthStart (monthOf d) := by
      rw [date, year_month, sub_self, add_zero]
    rw [Windows.get, h, addDate_month]
    rfl

/-! ## Windows contain their instants -/

/-- What the search assumes of a location: its civil date does not go back, and it is at most as
far from UTC as the search looks. -/
structure Location.Regular (l : Location) : Prop where
  monotone : Monotone l.dateAt
  near : ∀ s, |l.offset s| ≤ 48 * 3600

theorem Location.Regular.boundary_gc {l : Location} (h : l.Regular) :
    GaloisConnection (fun d => boundary d l) (fun x => l.dateAt (x / second)) := by
  intro d x
  dsimp only
  rw [boundary]
  split
  · next hu =>
      rw [Location.dateAt, l.offset_utc hu, second]
      constructor <;> intro hx <;> omega
  · rw [← Int.le_ediv_iff_mul_le (by decide), ← dateNumber_strictMono.le_iff_le (a := d)]
    refine bisect_le_iff (f := fun s => dateNumber (l.dateAt s)) ?_ _ _ ?_ ?_ _
    · exact dateNumber_strictMono.monotone.comp h.monotone
    · intro t ht
      have hn := abs_le.mp (h.near t)
      refine dateNumber_lt.mpr ?_
      rw [Location.dateAt]
      omega
    · have hn := abs_le.mp (h.near (d * 86400 + 48 * 3600))
      refine dateNumber_strictMono.monotone ?_
      rw [Location.dateAt]
      omega

/-- A period starts no later than an instant exactly when its number is at most the instant's. -/
theorem Location.Regular.period_gc {l : Location} (h : l.Regular) (kind : Period) :
    GaloisConnection (fun i => boundary (periodStart kind i) l)
      (fun x => periodOf kind (l.dateAt (x / second))) :=
  (periodStart_gc kind).compose h.boundary_gc

theorem Location.Regular.day_start {c : Calendar} (h : c.loc.Regular) (d : ℤ) :
    (c.windows (boundary d c.loc)).day.start = boundary d c.loc := by
  have hw := c.windows_get (boundary d c.loc) .day
  rw [Windows.get] at hw
  rw [hw, makeWindow_start]
  exact h.boundary_gc.l_u_l_eq_l d

/-- **Civil windows.**  In a location whose civil date never goes back and that is at most 48 hours
from UTC, a window contains its instant; two instants share a window exactly when neither is at or
past the end of the other's; a window ends where the next one starts; and every window starts and
ends where a day does. -/
theorem windows_tile_civil_time (c : Calendar) (h : c.loc.Regular) (kind : Period) (x y : ℤ) :
    (((c.windows x).get kind).start ≤ x ∧ x < ((c.windows x).get kind).stop) ∧
    ((c.windows x).get kind = (c.windows y).get kind ↔
      x < ((c.windows y).get kind).stop ∧ y < ((c.windows x).get kind).stop) ∧
    ((c.windows ((c.windows x).get kind).stop).get kind).start = ((c.windows x).get kind).stop ∧
    (c.windows ((c.windows x).get kind).start).day.start = ((c.windows x).get kind).start ∧
    (c.windows ((c.windows x).get kind).stop).day.start = ((c.windows x).get kind).stop := by
  have gc := h.period_gc kind
  have hx := c.windows_get x kind
  have hy := c.windows_get y kind
  have hcontains : ∀ z, ((c.windows z).get kind).start ≤ z ∧ z < ((c.windows z).get kind).stop := by
    intro z
    rw [c.windows_get z kind]
    exact (mem_interval_iff gc).mpr rfl
  refine ⟨hcontains x, ?_, ?_, ?_, ?_⟩
  · constructor
    · intro heq
      rw [← heq]
      refine ⟨(hcontains x).2, ?_⟩
      rw [heq]
      exact (hcontains y).2
    · rintro ⟨hxy, hyx⟩
      rw [hy] at hxy
      rw [hx] at hyx
      -- neither is past the other's period, so the periods are the same
      have h1 := (gc.lt_iff_lt).mp hxy
      have h2 := (gc.lt_iff_lt).mp hyx
      rw [hx, hy]
      rw [show periodOf kind (c.loc.dateAt (x / second)) = periodOf kind (c.loc.dateAt (y / second))
        by omega]
  · rw [c.windows_get _ kind, hx, makeWindow_start, makeWindow_stop]
    exact gc.l_u_l_eq_l (periodOf kind (c.loc.dateAt (x / second)) + 1)
  · rw [hx, makeWindow_start]
    exact h.day_start (periodStart kind (periodOf kind (c.loc.dateAt (x / second))))
  · rw [hx, makeWindow_stop]
    exact h.day_start (periodStart kind (periodOf kind (c.loc.dateAt (x / second)) + 1))

/-- A location that skips a date: at the start of 1970 it goes from eleven hours behind UTC to
thirteen hours ahead. -/
def skipping : Location := ⟨false, fun s => if s < 0 then -39600 else 46800, nofun⟩

theorem skipping_regular : skipping.Regular := by
  constructor
  · intro s t hst
    simp only [Location.dateAt, skipping]
    split <;> split <;> omega
  · intro s
    simp only [skipping]
    split <;> decide

/-- The windows on both sides of the date that is skipped. -/
theorem windows_tile_civil_time_skipping :
    skipping.Regular ∧
    ((Calendar.windows ⟨some skipping⟩ (-1)).get .day).start ≤ -1 ∧
    ((Calendar.windows ⟨some skipping⟩ ((Calendar.windows ⟨some skipping⟩ (-1)).get .day).stop).get
      .day).start = ((Calendar.windows ⟨some skipping⟩ (-1)).get .day).stop := by
  have h := windows_tile_civil_time ⟨some skipping⟩ skipping_regular .day (-1) 0
  exact ⟨skipping_regular, h.1.1, h.2.2.1⟩

/-- A location three days ahead of UTC, farther than the search looks. -/
def farAhead : Location := ⟨false, fun _ => 72 * 3600, nofun⟩

theorem farAhead_not_contained :
    Monotone farAhead.dateAt ∧ (∀ s, |farAhead.offset s| ≤ 72 * 3600) ∧
    ¬ ((Calendar.windows ⟨some farAhead⟩ 0).get .day).start ≤ 0 := by
  refine ⟨?_, fun s => by simp only [farAhead]; decide, ?_⟩
  · intro s t hst
    simp only [Location.dateAt, farAhead]
    omega
  · rw [Calendar.windows_get, makeWindow_start]
    change ¬ boundary 3 farAhead ≤ 0
    rw [boundary, if_neg (by decide)]
    dsimp only
    rw [bisect_eq_low]
    · decide
    · intro t ht
      refine decide_eq_false (not_lt.mpr (dateNumber_strictMono.monotone ?_))
      simp only [Location.dateAt, farAhead]
      omega

/-! ## The windows of the UTC calendar -/

def midnight (d : ℤ) : ℤ := d * 86400 * second

/-- `Unix`: the second of an instant. -/
def unix (x : ℤ) : ℤ := x / second

/-- What `limits.BudgetWindows` returns. -/
structure BudgetWindows where
  weeklyStart : ℤ
  weeklyEnd : ℤ
  weeklyId : ℤ
  dailyStart : ℤ
  dailyEnd : ℤ
  monthlyStart : ℤ
  monthlyEnd : ℤ
  dailyId : ℤ
  monthlyId : ℤ
  deriving DecidableEq, Repr

/-- `limits.BudgetWindows`. -/
def budgetWindows (now : ℤ) : BudgetWindows :=
  let utc := Location.UTC.dateAt (unix now)
  let today := date (year utc) (month utc) (day utc)
  let first := date (year utc) (month utc) 1
  let civil := Calendar.windows ⟨none⟩ now
  { weeklyStart := civil.week.start
    weeklyEnd := civil.week.stop
    weeklyId := Int.tdiv (Int.tdiv (unix civil.week.start) 86400 + 3) 7
    dailyStart := midnight today
    dailyEnd := midnight (addDate today 0 0 1)
    monthlyStart := midnight first
    monthlyEnd := midnight (addDate first 0 1 0)
    dailyId := Int.tdiv (unix (midnight today)) 86400
    monthlyId := year utc * 12 + month utc - 1 }

/-- The identifier of a window of a kind. -/
def BudgetWindows.id (w : BudgetWindows) : Period → ℤ
  | .day => w.dailyId
  | .week => w.weeklyId
  | .month => w.monthlyId

/-- The end of a window of a kind. -/
def BudgetWindows.stop (w : BudgetWindows) : Period → ℤ
  | .day => w.dailyEnd
  | .week => w.weeklyEnd
  | .month => w.monthlyEnd

theorem unix_midnight (d : ℤ) : unix (midnight d) = d * 86400 :=
  Int.mul_ediv_cancel _ (by decide)

/-- From 1970 on, a window is identified by the number of its period and ends where the next
period starts. -/
theorem budgetWindows_period {now : ℤ} (h : 0 ≤ now) (kind : Period) :
    (budgetWindows now).id kind = periodOf kind (now / (86400 * second)) ∧
    (budgetWindows now).stop kind =
      midnight (periodStart kind (periodOf kind (now / (86400 * second)) + 1)) := by
  have hdate : Location.UTC.dateAt (unix now) = now / (86400 * second) := by
    simp only [Location.dateAt, unix, Location.UTC, second]
    omega
  have hd : 0 ≤ now / (86400 * second) := Int.ediv_nonneg h (by decide)
  cases kind with
  | day =>
    simp only [BudgetWindows.id, BudgetWindows.stop, budgetWindows, hdate, date_eq, addDate_days,
      unix_midnight, periodOf, periodStart]
    exact ⟨Int.mul_tdiv_cancel _ (by decide), trivial⟩
  | week =>
    have hw := Calendar.windows_get ⟨none⟩ now .week
    rw [Windows.get] at hw
    have hloc : (Calendar.mk none).loc.dateAt (now / second) = now / (86400 * second) := hdate
    rw [hloc] at hw
    have hutc : ∀ e, boundary e (Calendar.mk none).loc = midnight e := fun _ => rfl
    simp only [BudgetWindows.id, BudgetWindows.stop, budgetWindows, hw, makeWindow_start,
      makeWindow_stop, hutc, unix_midnight, Int.mul_tdiv_cancel _ (show (86400 : ℤ) ≠ 0 by decide),
      periodStart, periodOf, and_true]
    rw [Int.tdiv_eq_ediv_of_nonneg (by omega)]
    omega
  | month =>
    have hfirst : date (year (now / (86400 * second))) (month (now / (86400 * second))) 1 =
        monthStart (monthOf (now / (86400 * second))) := by
      rw [date, year_month, sub_self, add_zero]
    have hm := year_month (now / (86400 * second))
    simp only [BudgetWindows.id, BudgetWindows.stop, budgetWindows, hdate, hfirst, addDate_month,
      periodOf, periodStart, and_true]
    omega

/-! ## The windows of the scripts -/

/-- The year of an era, from the centuries, the cycles of four years and the years of the cycle
that have passed, and the day of the year.  A year has a day 365 only when a leap day ends it. -/
theorem yearOfEra_eq {c q s r : ℕ} (hc : c < 4) (hq : q < 25) (hs : s < 4) (hr : r ≤ 365)
    (hleap : r = 365 → s = 3 ∧ (q = 24 → c = 3)) {d : ℕ}
    (hd : d = 36524 * c + 1461 * q + 365 * s + r) :
    (d - d / 1460 + d / 36524 - d / 146096) / 365 = 100 * c + 4 * q + s := by
  rcases lt_or_ge (1461 * q + 365 * s + r) 36524 with h | h
  · have h1 : d / 36524 = c := by omega
    have h2 : d / 146096 = 0 := by omega
    -- each cycle that has passed takes its leap day back, and so does the leap day of this one
    have h3 : d / 1460 = 25 * c + q + if 24 * c + q + 365 * s + r < 1460 then 0 else 1 := by
      split <;> omega
    rw [h1, h2, h3]
    split <;> omega
  · obtain ⟨rfl, rfl, rfl, rfl⟩ : c = 3 ∧ q = 24 ∧ s = 3 ∧ r = 365 := by omega
    subst hd
    decide

theorem yearStart_eq {e c q s : ℤ} (hc : 0 ≤ c ∧ c < 4) (hq : 0 ≤ q ∧ q < 25)
    (hs : 0 ≤ s ∧ s < 4) :
    yearStart (400 * e + 100 * c + 4 * q + s) = 146097 * e + 36524 * c + 1461 * q + 365 * s := by
  have h4 : (400 * e + 100 * c + 4 * q + s) / 4 = 100 * e + 25 * c + q := by omega
  have h100 : (400 * e + 100 * c + 4 * q + s) / 100 = 4 * e + c := by omega
  have h400 : (400 * e + 100 * c + 4 * q + s) / 400 = e := by omega
  rw [yearStart, h4, h100, h400]
  omega

theorem exists_cycles (y : ℕ) :
    ∃ e c q s : ℕ, y = 400 * e + 100 * c + 4 * q + s ∧ c < 4 ∧ q < 25 ∧ s < 4 :=
  ⟨y / 400, y % 400 / 100, y % 100 / 4, y % 4, by omega⟩

/-- The month that the script finds for a day, counted from the March of year 0. -/
theorem shiftedMonth_eq (n : ℕ) :
    12 * ((Limits.shiftedMonth n).1 : ℤ) + (Limits.shiftedMonth n).2 - 1 =
      monthOf ((n : ℤ) - 719468) ∧
    1 ≤ (Limits.shiftedMonth n).2 ∧ (Limits.shiftedMonth n).2 ≤ 12 := by
  obtain ⟨hlow, hhigh⟩ := yearOf_spec n
  have hlen := yearStart_succ_eq (yearOf n)
  obtain ⟨y, hy⟩ : ∃ y : ℕ, yearOf n = y := by
    refine Int.eq_ofNat_of_zero_le ?_
    by_contra hneg
    unfold yearStart at hhigh
    omega
  obtain ⟨e, c, q, s, hcycles, hc, hq, hs⟩ := exists_cycles y
  have hstart : yearStart y = 146097 * e + 36524 * c + 1461 * q + 365 * s := by
    rw [hcycles]
    push_cast
    exact yearStart_eq (by omega) (by omega) (by omega)
  rw [hy] at hlow hhigh hlen
  obtain ⟨r, hr⟩ : ∃ r : ℕ, (n : ℤ) = yearStart y + r := ⟨(n - yearStart y).toNat, by omega⟩
  -- the day of the year is the 366th only before a leap day's March
  have hlast : r ≤ 365 ∧ (r = 365 → s = 3 ∧ (q = 24 → c = 3)) := by
    split at hlen
    · next h =>
        simp only [isLeap, decide_eq_true_eq] at h
        omega
    · omega
  have hera : n / 146097 = e := by omega
  have hdays : n - n / 146097 * 146097 = 36524 * c + 1461 * q + 365 * s + r := by
    rw [hera]
    omega
  have hyoe := yearOfEra_eq hc hq hs hlast.1 hlast.2 hdays
  have hday : n - n / 146097 * 146097 - (365 * (100 * c + 4 * q + s) + (100 * c + 4 * q + s) / 4 -
      (100 * c + 4 * q + s) / 100) = r := by
    have h4 : (100 * c + 4 * q + s) / 4 = 25 * c + q := by omega
    have h100 : (100 * c + 4 * q + s) / 100 = c := by omega
    rw [hdays, h4, h100]
    omega
  have hmonth : monthOf ((n : ℤ) - 719468) = 12 * y + (5 * (r : ℤ) + 2) / 153 + 2 := by
    rw [monthOf, show (n : ℤ) - 719468 + 719468 = n by omega, hy, hr]
    omega
  unfold Limits.shiftedMonth
  dsimp only
  rw [hyoe, hday, hmonth, hera]
  split <;> split <;> omega

theorem civilMonth_eq (n : ℕ) :
    12 * ((Limits.civilMonth n).1 : ℤ) + (Limits.civilMonth n).2 - 1 = monthOf n ∧
    1 ≤ (Limits.civilMonth n).2 ∧ (Limits.civilMonth n).2 ≤ 12 := by
  have h := shiftedMonth_eq (n + 719468)
  rw [show ((n + 719468 : ℕ) : ℤ) - 719468 = n by omega] at h
  exact h

theorem daysFromCivil_eq {y m : ℕ} (hm : 1 ≤ m ∧ m ≤ 12) (h : 0 ≤ monthStart (12 * y + m - 1)) :
    (Limits.daysFromCivil y m 1 : ℤ) = monthStart (12 * y + m - 1) := by
  have hy : 1 ≤ y := by
    by_contra hzero
    unfold monthStart yearStart at h
    omega
  obtain ⟨p, hp⟩ : ∃ p : ℕ, p = if 2 < m then m - 3 else m + 9 := ⟨_, rfl⟩
  obtain ⟨z, hz⟩ : ∃ z : ℕ, z = y - if m ≤ 2 then 1 else 0 := ⟨_, rfl⟩
  obtain ⟨e, c, q, s, hcycles, hc, hq, hs⟩ := exists_cycles z
  have hsplit : (12 * (y : ℤ) + m - 1 - 2) / 12 = z ∧ (12 * (y : ℤ) + m - 1 - 2) % 12 = p := by
    split at hp <;> split at hz <;> omega
  have hstart : yearStart z = 146097 * e + 36524 * c + 1461 * q + 365 * s := by
    rw [hcycles]
    push_cast
    exact yearStart_eq (by omega) (by omega) (by omega)
  have h400 : z / 400 = e := by omega
  have h4 : (z - e * 400) / 4 = 25 * c + q := by omega
  have h100 : (z - e * 400) / 100 = c := by omega
  rw [monthStart, hsplit.1, hsplit.2, hstart] at h
  rw [monthStart, hsplit.1, hsplit.2, hstart]
  unfold Limits.daysFromCivil
  dsimp only
  rw [← hz, ← hp, h400, h4, h100]
  omega

/-- The identifier and the end that the script computes are those of the period of the day. -/
theorem windowAt_period (nowMs : ℕ) (kind : Period) :
    ((Limits.windowAt nowMs kind).id : ℤ) = periodOf kind ((nowMs : ℤ) / 86400000) ∧
    0 < (Limits.windowAt nowMs kind).ttl ∧
    ((nowMs + (Limits.windowAt nowMs kind).ttl : ℕ) : ℤ) =
      periodStart kind (periodOf kind ((nowMs : ℤ) / 86400000) + 1) * 86400000 := by
  cases kind with
  | day | week =>
    simp only [Limits.windowAt, Limits.dayMs, periodOf, periodStart]
    omega
  | month =>
    have hd : ((nowMs / 86400000 : ℕ) : ℤ) = (nowMs : ℤ) / 86400000 := by omega
    obtain ⟨hid, hm⟩ := civilMonth_eq (nowMs / 86400000)
    have hnext := (monthOf_spec ((nowMs / 86400000 : ℕ) : ℤ)).2
    simp only [Limits.windowAt, Limits.dayMs, periodOf, periodStart]
    generalize Limits.civilMonth (nowMs / 86400000) = ym at *
    obtain ⟨y, m⟩ := ym
    dsimp only at *
    rw [← hid] at hnext
    rw [← hd, ← hid]
    have hfirst : (Limits.daysFromCivil (y + if m = 12 then 1 else 0)
        (if m = 12 then 1 else m + 1) 1 : ℤ) = monthStart (12 * y + m - 1 + 1) := by
      split
      · next h12 =>
          have h1 : 12 * (y : ℤ) + m - 1 + 1 = 12 * ((y + 1 : ℕ) : ℤ) + (1 : ℕ) - 1 := by omega
          rw [h1] at hnext ⊢
          exact daysFromCivil_eq (by omega) (by omega)
      · next h12 =>
          have h1 : 12 * (y : ℤ) + m - 1 + 1 = 12 * ((y + 0 : ℕ) : ℤ) + (m + 1 : ℕ) - 1 := by omega
          rw [h1] at hnext ⊢
          exact daysFromCivil_eq (by omega) (by omega)
    rw [← hfirst] at hnext ⊢
    omega

/-- **Agreement on the calendar.**  From 1970 on, the script never finds a window without time
left, its identifiers are those of `BudgetWindows` for the same instant, and the time it leaves
ends where that window does: at the next day, the next Monday, and the first of the next month. -/
theorem script_windows_agree (now : ℕ) :
    Limits.windows (now / 1000000) = some (Limits.windowAt (now / 1000000)) ∧
    (∀ kind, ((Limits.windowAt (now / 1000000) kind).id : ℤ) = (budgetWindows now).id kind ∧
      ((now / 1000000 + (Limits.windowAt (now / 1000000) kind).ttl : ℕ) : ℤ) * 1000000 =
        (budgetWindows now).stop kind) ∧
    (budgetWindows now).stop .day = midnight ((now : ℤ) / (86400 * second) + 1) ∧
    (∃ e, (budgetWindows now).stop .week = midnight e ∧ weekday e = 1 ∧
      (now : ℤ) / (86400 * second) < e ∧ e ≤ (now : ℤ) / (86400 * second) + 7) ∧
    (budgetWindows now).stop .month =
      midnight (date (year ((now : ℤ) / (86400 * second)))
        (month ((now : ℤ) / (86400 * second)) + 1) 1) := by
  have hday : ((now / 1000000 : ℕ) : ℤ) / 86400000 = (now : ℤ) / (86400 * second) := by
    unfold second
    omega
  have hgo := fun kind => budgetWindows_period (Int.natCast_nonneg now) kind
  refine ⟨?_, fun kind => ?_, (hgo .day).2, ?_, ?_⟩
  · have hd := (windowAt_period (now / 1000000) .day).2.1
    have hm := (windowAt_period (now / 1000000) .month).2.1
    rw [Limits.windows, if_neg (by omega)]
  · obtain ⟨hid, -, hend⟩ := windowAt_period (now / 1000000) kind
    rw [hday] at hid hend
    rw [(hgo kind).1, (hgo kind).2, hid, hend]
    refine ⟨rfl, ?_⟩
    unfold midnight second
    omega
  · refine ⟨_, (hgo .week).2, ?_⟩
    simp only [periodStart, periodOf, weekday]
    omega
  · have hm := year_month ((now : ℤ) / (86400 * second))
    rw [(hgo .month).2, date]
    simp only [periodStart, periodOf]
    rw [← hm]
    congr 1
    rw [sub_self, add_zero]
    congr 1
    omega

end Olp.BudgetCalendar
