import Olp.Budget.Civil
import Olp.Run

/-!
# Budget windows under changes of the time zone

A budget period runs in the calendar of a time zone.  The zone can be changed: each kind of period
finishes the window it is in and adopts the new calendar at its end, which may cut a week or a
month of the new calendar short.

Instants are microseconds since 1970, as the database counts them, and a time zone is its offset
from UTC at each second.  `windows_tile` shows that the windows tile time from 1970 on under any
sequence of changes, with identifiers that grow, and that no change touches a window of the past.
-/

namespace Olp.Budget

open Olp.Boundary List
open Olp.Limits (Period)

def second : ℤ := 1000000

/-- The time zones the database knows, by the seconds each is ahead of UTC. -/
structure TimeZones (ζ : Type*) where
  utc : ζ
  offset : ζ → ℤ → ℤ
  offset_utc : ∀ s, offset utc s = 0

/-- A row of `budget_calendar_changes`. -/
structure Change (ζ : Type*) where
  effectiveAt : ℤ
  timeZone : ζ
  deriving DecidableEq, Repr

/-- What `budget_window` returns. -/
structure Window (ζ : Type*) where
  id : ℤ
  startAt : ℤ
  endAt : ℤ
  timeZone : ζ
  deriving DecidableEq, Repr

variable {ζ : Type*} (tz : TimeZones ζ)

/-- `(instant AT TIME ZONE zone)::date`. -/
def TimeZones.civilDate (zone : ζ) (x : ℤ) : ℤ :=
  (x / second + tz.offset zone (x / second)) / 86400

theorem TimeZones.civilDate_second (zone : ζ) (s : ℤ) :
    tz.civilDate zone (s * second) = (s + tz.offset zone s) / 86400 := by
  rw [TimeZones.civilDate, Int.mul_ediv_cancel s (by decide)]

/-- The row with the latest `effective_at` up to an instant. -/
def latestChange : List (Change ζ) → ℤ → Option (Change ζ)
  | [], _ => none
  | r :: rows, x =>
    match latestChange rows x with
    | some c => if r.effectiveAt ≤ x ∧ c.effectiveAt < r.effectiveAt then some r else some c
    | none => if r.effectiveAt ≤ x then some r else none

/-- The earliest `effective_at` after an instant. -/
def nextChange : List (Change ζ) → ℤ → Option ℤ
  | [], _ => none
  | r :: rows, x =>
    if x < r.effectiveAt then
      match nextChange rows x with
      | some next => some (min r.effectiveAt next)
      | none => some r.effectiveAt
    else nextChange rows x

section Lookup

variable {rows : List (Change ζ)} {c : Change ζ} {x t n : ℤ}

/-- Rows with the newest first, none as new as another. -/
def NewestFirst (rows : List (Change ζ)) : Prop :=
  rows.Pairwise fun a b => b.effectiveAt < a.effectiveAt

theorem latestChange_cons_of_lt {r : Change ζ} (h : x < r.effectiveAt) :
    latestChange (r :: rows) x = latestChange rows x := by
  have hx : ¬ r.effectiveAt ≤ x := not_le.mpr h
  rw [latestChange]
  cases latestChange rows x with
  | none => exact if_neg hx
  | some c => exact if_neg fun hr => hx hr.1

theorem latestChange_filter (h : x ≤ t) :
    latestChange (rows.filter fun r => r.effectiveAt ≤ t) x = latestChange rows x := by
  induction rows with
  | nil => rfl
  | cons r rows ih =>
    rw [filter_cons]
    split
    · rw [latestChange, latestChange, ih]
    · next hr =>
        rw [ih, latestChange_cons_of_lt]
        simp only [decide_eq_true_eq] at hr
        omega

theorem mem_of_latestChange (h : latestChange rows x = some c) : c ∈ rows ∧ c.effectiveAt ≤ x := by
  induction rows generalizing c with
  | nil => cases h
  | cons r rows ih =>
    rw [latestChange] at h
    cases hl : latestChange rows x with
    | none =>
      simp only [hl, Option.ite_none_right_eq_some, Option.some.injEq] at h
      obtain ⟨hr, rfl⟩ := h
      exact ⟨mem_cons_self, hr⟩
    | some c' =>
      obtain ⟨hmem, hle⟩ := ih hl
      simp only [hl] at h
      split at h
      · next hr =>
          cases h
          exact ⟨mem_cons_self, hr.1⟩
      · cases h
        exact ⟨mem_cons_of_mem r hmem, hle⟩

variable {q : Change ζ}

theorem exists_latestChange (hq : q ∈ rows) (hx : q.effectiveAt ≤ x) :
    ∃ c, latestChange rows x = some c ∧ q.effectiveAt ≤ c.effectiveAt := by
  induction rows with
  | nil => cases hq
  | cons r rows ih =>
    rw [latestChange]
    rcases mem_cons.mp hq with rfl | hq
    · cases latestChange rows x with
      | none => exact ⟨q, if_pos hx, le_rfl⟩
      | some c =>
        dsimp only
        split
        · exact ⟨q, rfl, le_rfl⟩
        · exact ⟨c, rfl, by omega⟩
    · obtain ⟨c, hc, hle⟩ := ih hq
      rw [hc]
      dsimp only
      split
      · exact ⟨r, rfl, by omega⟩
      · exact ⟨c, rfl, hle⟩

theorem NewestFirst.eq_of_effectiveAt_eq (h : NewestFirst rows) (hq : q ∈ rows) (hc : c ∈ rows)
    (he : q.effectiveAt = c.effectiveAt) : q = c := by
  have hnodup : (rows.map Change.effectiveAt).Nodup :=
    pairwise_map.mpr (h.imp fun hlt => hlt.ne')
  exact inj_on_of_nodup_map hnodup hq hc he

theorem NewestFirst.latestChange_eq (h : NewestFirst rows) (hc : c ∈ rows)
    (hx : c.effectiveAt ≤ x)
    (hmax : ∀ q ∈ rows, q.effectiveAt ≤ x → q.effectiveAt ≤ c.effectiveAt) :
    latestChange rows x = some c := by
  obtain ⟨c', hc', hle⟩ := exists_latestChange hc hx
  obtain ⟨hmem, hx'⟩ := mem_of_latestChange hc'
  rw [hc', h.eq_of_effectiveAt_eq hmem hc (le_antisymm (hmax c' hmem hx') hle)]

theorem mem_of_nextChange (h : nextChange rows x = some n) :
    x < n ∧ ∃ q ∈ rows, q.effectiveAt = n := by
  induction rows generalizing n with
  | nil => cases h
  | cons r rows ih =>
    rw [nextChange] at h
    split at h
    · next hr =>
        cases hl : nextChange rows x with
        | none =>
          simp only [hl, Option.some.injEq] at h
          subst h
          exact ⟨hr, r, mem_cons_self, rfl⟩
        | some next =>
          simp only [hl, Option.some.injEq] at h
          subst h
          obtain ⟨hlt, q, hq, he⟩ := ih hl
          refine ⟨lt_min hr hlt, ?_⟩
          rcases min_choice r.effectiveAt next with hm | hm
          · exact ⟨r, mem_cons_self, hm.symm⟩
          · exact ⟨q, mem_cons_of_mem r hq, he.trans hm.symm⟩
    · obtain ⟨hlt, q, hq, he⟩ := ih h
      exact ⟨hlt, q, mem_cons_of_mem r hq, he⟩

theorem exists_nextChange (hq : q ∈ rows) (hx : x < q.effectiveAt) :
    ∃ n, nextChange rows x = some n ∧ n ≤ q.effectiveAt := by
  induction rows with
  | nil => cases hq
  | cons r rows ih =>
    rw [nextChange]
    rcases mem_cons.mp hq with rfl | hq
    · rw [if_pos hx]
      cases nextChange rows x with
      | none => exact ⟨_, rfl, le_rfl⟩
      | some next => exact ⟨_, rfl, min_le_left _ _⟩
    · obtain ⟨n, hn, hle⟩ := ih hq
      rw [hn]
      split
      · exact ⟨_, rfl, (min_le_right _ _).trans hle⟩
      · exact ⟨n, rfl, hle⟩

end Lookup

variable [DecidableEq ζ]

/-- `budget_civil_boundary`: the first instant of a civil date, looked for within two days of the
same date in UTC. -/
def TimeZones.civilBoundary (date : ℤ) (zone : ζ) : ℤ :=
  if zone = tz.utc then date * 86400 * second
  else
    let low := date * 86400 - 172800
    bisect (fun middle => tz.civilDate zone (middle * second) < date) low (low + 345600) * second

/-- `extract(epoch FROM …)::bigint`, which rounds to the nearest second. -/
def epoch (x : ℤ) : ℤ := (x + second / 2) / second

/-- The identifier of a window: that of the UTC calendar before the first change of zone, and the
second it starts at from then on. -/
def windowId (kind : Period) (changeAt startAt : ℤ) (date : ℤ) : ℤ :=
  if changeAt = 0 then
    match kind with
    | .day => startAt / (86400 * second)
    | .week => (startAt / (86400 * second) + 3) / 7
    | .month => monthOf date
  else epoch startAt

/-- `LEAST`, which leaves a null out. -/
def least (x : ℤ) : Option ℤ → ℤ
  | some y => min x y
  | none => x

/-- `budget_window` on the rows of its kind; none where the strict `SELECT` finds no row. -/
def budgetWindow (rows : List (Change ζ)) (kind : Period) (x : ℤ) : Option (Window ζ) :=
  (latestChange rows x).map fun change =>
    let date := dateTrunc kind (tz.civilDate change.timeZone x)
    let startAt := max (tz.civilBoundary date change.timeZone) change.effectiveAt
    { id := windowId kind change.effectiveAt startAt date
      startAt := startAt
      endAt := least (tz.civilBoundary (nextDate kind date) change.timeZone) (nextChange rows x)
      timeZone := change.timeZone }

/-! ## Changing the zone -/

/-- What `schedule_budget_zone` does for one kind; none where it raises. -/
def scheduleKind (zone : ζ) (x : ℤ) (kind : Period) (rows : List (Change ζ)) :
    Option (List (Change ζ)) :=
  let kept := rows.filter fun r => r.effectiveAt ≤ x
  (budgetWindow tz kept kind x).bind fun current =>
    if current.timeZone = zone then some kept
    else if kept.any fun r => r.effectiveAt = current.endAt then none
    else some (⟨current.endAt, zone⟩ :: kept)

abbrev Tables (ζ : Type*) := Period → List (Change ζ)

/-- `schedule_budget_zone`, for all three kinds or for none. -/
def scheduleBudgetZone (zone : ζ) (x : ℤ) (tables : Tables ζ) : Option (Tables ζ) := do
  let day ← scheduleKind tz zone x .day (tables .day)
  let week ← scheduleKind tz zone x .week (tables .week)
  let month ← scheduleKind tz zone x .month (tables .month)
  some fun
    | .day => day
    | .week => week
    | .month => month

def initialTables : Tables ζ := fun _ => [⟨0, tz.utc⟩]

/-- A call of `schedule_budget_zone` in a transaction of its own. -/
def callSchedule (tables : Tables ζ) (call : ζ × ℤ) : Tables ζ :=
  (scheduleBudgetZone tz call.1 call.2 tables).getD tables

/-! ## Boundaries of a zone -/

/-- What is assumed of the zones: local dates do not go back, and a zone is at most two days from
UTC. -/
structure TimeZones.Regular : Prop where
  monotone : ∀ zone, Monotone (tz.civilDate zone)
  near : ∀ zone s, |tz.offset zone s| ≤ 172800

variable {tz}

theorem TimeZones.Regular.civilBoundary_gc (h : tz.Regular) (zone : ζ) :
    GaloisConnection (fun date => tz.civilBoundary date zone) (tz.civilDate zone) := by
  intro date x
  dsimp only
  rw [TimeZones.civilBoundary]
  split
  · next hz =>
      rw [TimeZones.civilDate, hz, tz.offset_utc, second]
      constructor <;> intro hx <;> omega
  · have hfloor : tz.civilDate zone x = tz.civilDate zone (x / second * second) := by
      rw [TimeZones.civilDate_second, TimeZones.civilDate]
    rw [← Int.le_ediv_iff_mul_le (by decide), hfloor]
    refine bisect_le_iff (f := fun s => tz.civilDate zone (s * second)) ?_ _ _ ?_ ?_ _
    · intro s t hst
      exact h.monotone zone (Int.mul_le_mul_of_nonneg_right hst (by decide))
    · intro t ht
      have hn := abs_le.mp (h.near zone t)
      rw [TimeZones.civilDate_second]
      omega
    · have hn := abs_le.mp (h.near zone (date * 86400 - 172800 + 345600))
      rw [TimeZones.civilDate_second]
      omega

theorem TimeZones.second_dvd_civilBoundary (date : ℤ) (zone : ζ) :
    second ∣ tz.civilBoundary date zone := by
  rw [TimeZones.civilBoundary]
  split <;> exact Int.dvd_mul_left _ _

/-! ## Periods of a zone -/

variable (tz) in
/-- The first instant of a period in a zone. -/
def periodBoundary (kind : Period) (zone : ζ) (i : ℤ) : ℤ :=
  tz.civilBoundary (periodStart kind i) zone

variable (tz) in
def periodAt (kind : Period) (zone : ζ) (x : ℤ) : ℤ := periodOf kind (tz.civilDate zone x)

theorem TimeZones.Regular.periodBoundary_gc (h : tz.Regular) (kind : Period) (zone : ζ) :
    GaloisConnection (periodBoundary tz kind zone) (periodAt tz kind zone) :=
  (periodStart_gc kind).compose (h.civilBoundary_gc zone)

variable (tz) in
/-- The window of an instant in the calendar of a change, were there no later one. -/
def naturalWindow (kind : Period) (x : ℤ) (change : Change ζ) : Window ζ :=
  let startAt := max (periodBoundary tz kind change.timeZone (periodAt tz kind change.timeZone x))
    change.effectiveAt
  { id := windowId kind change.effectiveAt startAt
      (periodStart kind (periodAt tz kind change.timeZone x))
    startAt := startAt
    endAt := periodBoundary tz kind change.timeZone (periodAt tz kind change.timeZone x + 1)
    timeZone := change.timeZone }

theorem budgetWindow_eq (rows : List (Change ζ)) (kind : Period) (x : ℤ) :
    budgetWindow tz rows kind x = (latestChange rows x).map fun change =>
      { naturalWindow tz kind x change with
        endAt := least (naturalWindow tz kind x change).endAt (nextChange rows x) } := by
  rw [budgetWindow]
  congr 1
  funext change
  simp only [naturalWindow, periodBoundary, dateTrunc_eq, nextDate_periodStart]
  rfl

/-! ## Tables that schedules build -/

variable (tz) in
/-- The rows of a kind, the newest first: each change takes effect at the boundary of a period in
the calendar of the one before it. -/
inductive Chain (kind : Period) : List (Change ζ) → Prop
  | init : Chain kind [⟨0, tz.utc⟩]
  | cons {c : Change ζ} {rows : List (Change ζ)} (zone : ζ) (i : ℤ) (h : Chain kind (c :: rows))
      (lt : c.effectiveAt < periodBoundary tz kind c.timeZone i) :
      Chain kind (⟨periodBoundary tz kind c.timeZone i, zone⟩ :: c :: rows)

section Chain

variable {kind : Period} {rows : List (Change ζ)} {c : Change ζ} {x y n : ℤ}

variable (h : Chain tz kind rows)

include h

theorem Chain.newestFirst : NewestFirst rows := by
  induction h with
  | init => exact pairwise_singleton _ _
  | cons zone i _ lt ih =>
    refine pairwise_cons.mpr ⟨fun q hq => ?_, ih⟩
    rcases mem_cons.mp hq with rfl | hq
    · exact lt
    · exact (rel_of_pairwise_cons ih hq).trans lt

theorem Chain.effectiveAt : ∀ q ∈ rows, 0 ≤ q.effectiveAt ∧ second ∣ q.effectiveAt := by
  induction h with
  | init =>
    intro q hq
    obtain rfl := mem_singleton.mp hq
    exact ⟨le_rfl, dvd_zero _⟩
  | cons zone i _ lt ih =>
    have hc := (ih _ mem_cons_self).1
    exact forall_mem_cons.mpr
      ⟨⟨hc.trans lt.le, TimeZones.second_dvd_civilBoundary _ _⟩, ih⟩

theorem Chain.init_mem : ⟨0, tz.utc⟩ ∈ rows := by
  induction h with
  | init => exact mem_singleton_self _
  | cons _ _ _ _ ih => exact mem_cons_of_mem _ ih

theorem Chain.exists_latest (hx : 0 ≤ x) : ∃ c, latestChange rows x = some c := by
  obtain ⟨c, hc, -⟩ := exists_latestChange h.init_mem hx
  exact ⟨c, hc⟩

/-- The next change is at the boundary of a period in the calendar it ends. -/
theorem Chain.next (hc : latestChange rows x = some c)
    (hn : nextChange rows x = some n) : ∃ i, n = periodBoundary tz kind c.timeZone i := by
  induction h generalizing n with
  | init =>
    obtain ⟨hlt, q, hq, rfl⟩ := mem_of_nextChange hn
    obtain rfl := mem_singleton.mp hq
    have hx := (mem_of_latestChange hc).2
    obtain rfl := mem_singleton.mp (mem_of_latestChange hc).1
    omega
  | @cons c₀ rest zone i h lt ih =>
    have hnew := (Chain.cons zone i h lt).newestFirst
    rcases le_or_gt (periodBoundary tz kind c₀.timeZone i) x with hx | hx
    · -- the newest change is in effect, so none is to come
      obtain ⟨hlt, q, hq, rfl⟩ := mem_of_nextChange hn
      rcases mem_cons.mp hq with rfl | hq
      · exact absurd hlt (not_lt.mpr hx)
      · have := rel_of_pairwise_cons hnew hq
        dsimp only at this
        omega
    · rw [latestChange_cons_of_lt hx] at hc
      rw [nextChange, if_pos hx] at hn
      cases hl : nextChange (c₀ :: rest) x with
      | none =>
        have hle : c₀.effectiveAt ≤ x := by
          by_contra hgt
          obtain ⟨n', hn', -⟩ := exists_nextChange mem_cons_self (not_le.mp hgt)
          rw [hl] at hn'
          cases hn'
        have hc₀ := h.newestFirst.latestChange_eq mem_cons_self hle fun q hq _ => by
          rcases mem_cons.mp hq with rfl | hq
          · exact le_rfl
          · exact (rel_of_pairwise_cons h.newestFirst hq).le
        rw [hc] at hc₀
        cases hc₀
        rw [hl] at hn
        exact ⟨i, (Option.some.inj hn).symm⟩
      | some next =>
        rw [hl] at hn
        obtain ⟨-, q, hq, rfl⟩ := mem_of_nextChange hl
        have := rel_of_pairwise_cons hnew hq
        cases hn
        rw [min_eq_right this.le]
        exact ih hc hl

/-- In a chain of schedules the window is that of the latest change, or there is none. -/
theorem Chain.budgetWindow_eq (hz : tz.Regular) (x : ℤ) :
    budgetWindow tz rows kind x = (latestChange rows x).map (naturalWindow tz kind x) := by
  rw [Budget.budgetWindow_eq]
  cases hc : latestChange rows x with
  | none => rfl
  | some c =>
    cases hn : nextChange rows x with
    | none => rfl
    | some n =>
      obtain ⟨i, rfl⟩ := h.next hc hn
      have hle := next_le_of_lt (hz.periodBoundary_gc kind c.timeZone) (mem_of_nextChange hn).1
      simp only [Option.map_some, least, naturalWindow, min_eq_left hle]

theorem Chain.latest_until (hz : tz.Regular)
    (hc : latestChange rows x = some c) (hle : c.effectiveAt ≤ y)
    (hlt : y < (naturalWindow tz kind x c).endAt) : latestChange rows y = some c := by
  obtain ⟨hmem, -⟩ := mem_of_latestChange hc
  refine h.newestFirst.latestChange_eq hmem hle fun q hq hqy => ?_
  rcases le_or_gt q.effectiveAt x with hqx | hqx
  · obtain ⟨c', hc', hle'⟩ := exists_latestChange hq hqx
    cases hc.symm.trans hc'
    exact hle'
  · -- a change after `x` comes only after the window of `x`
    obtain ⟨n, hn, hnq⟩ := exists_nextChange hq hqx
    obtain ⟨i, rfl⟩ := h.next hc hn
    have hend := next_le_of_lt (hz.periodBoundary_gc kind c.timeZone) (mem_of_nextChange hn).1
    dsimp only [naturalWindow] at hlt
    omega

end Chain

/-! ## Natural windows -/

section Natural

variable {kind : Period} {c : Change ζ} {x y : ℤ}

theorem naturalWindow_mem (kind : Period) (hz : tz.Regular) (hx : c.effectiveAt ≤ x) :
    (naturalWindow tz kind x c).startAt ≤ x ∧ x < (naturalWindow tz kind x c).endAt :=
  ⟨max_le ((hz.periodBoundary_gc kind c.timeZone).l_u_le x) hx,
    lt_next (hz.periodBoundary_gc kind c.timeZone) x⟩

theorem naturalWindow_congr (h : periodAt tz kind c.timeZone y = periodAt tz kind c.timeZone x) :
    naturalWindow tz kind y c = naturalWindow tz kind x c := by
  rw [naturalWindow, h]
  rfl

theorem naturalWindow_eq_of_mem (hz : tz.Regular) (hle : (naturalWindow tz kind x c).startAt ≤ y)
    (hlt : y < (naturalWindow tz kind x c).endAt) :
    naturalWindow tz kind y c = naturalWindow tz kind x c := by
  refine naturalWindow_congr ((mem_interval_iff (hz.periodBoundary_gc kind c.timeZone)).mp ?_)
  exact ⟨(le_max_left _ _).trans hle, hlt⟩

theorem naturalWindow_endAt (hz : tz.Regular) (hx : c.effectiveAt ≤ x) :
    (naturalWindow tz kind (naturalWindow tz kind x c).endAt c).startAt =
      (naturalWindow tz kind x c).endAt := by
  have hlt : x < (naturalWindow tz kind x c).endAt := (naturalWindow_mem kind hz hx).2
  have he := (hz.periodBoundary_gc kind c.timeZone).l_u_l_eq_l
    (periodAt tz kind c.timeZone x + 1)
  dsimp only [naturalWindow] at hlt ⊢
  rw [he, max_eq_left (hx.trans hlt.le)]

theorem naturalWindow_ordered (kind : Period) (hz : tz.Regular) (h : x ≤ y) :
    naturalWindow tz kind x c = naturalWindow tz kind y c ∨
      (naturalWindow tz kind x c).endAt ≤ (naturalWindow tz kind y c).startAt ∧
        periodAt tz kind c.timeZone x < periodAt tz kind c.timeZone y := by
  have gc := hz.periodBoundary_gc kind c.timeZone
  rcases eq_or_lt_of_le (gc.monotone_u h) with he | hlt
  · exact .inl (naturalWindow_congr he)
  · exact .inr ⟨(gc.monotone_l hlt).trans (le_max_left _ _), hlt⟩

theorem second_dvd_startAt (hc : second ∣ c.effectiveAt) :
    second ∣ (naturalWindow tz kind x c).startAt := by
  dsimp only [naturalWindow]
  rcases max_choice (periodBoundary tz kind c.timeZone (periodAt tz kind c.timeZone x))
    c.effectiveAt with h | h
  · rw [h]
    exact TimeZones.second_dvd_civilBoundary _ _
  · rwa [h]

theorem periodBoundary_utc (i : ℤ) :
    periodBoundary tz kind tz.utc i = periodStart kind i * 86400 * second := by
  rw [periodBoundary, TimeZones.civilBoundary, if_pos rfl]

omit [DecidableEq ζ] in
theorem periodAt_utc (x : ℤ) : periodAt tz kind tz.utc x = periodOf kind (x / second / 86400) := by
  rw [periodAt, TimeZones.civilDate, tz.offset_utc, add_zero]

theorem naturalWindow_id_initial (hx : 0 ≤ x) :
    (naturalWindow tz kind x ⟨0, tz.utc⟩).id = periodAt tz kind tz.utc x := by
  dsimp only [naturalWindow, windowId]
  rw [if_pos rfl, periodBoundary_utc, periodAt_utc]
  cases kind with
  | day | week =>
    simp only [periodStart, periodOf, second]
    omega
  | month => exact periodOf_periodStart .month _

theorem periodOf_lt_boundary (kind : Period) {i j : ℤ} (hj : periodOf kind 0 ≤ j) (h : j < i) :
    j < periodStart kind i * 86400 := by
  cases kind with
  | day | week => simp only [periodOf, periodStart] at *; omega
  | month =>
    have h0 : periodOf .month 0 = 23640 := by decide
    simp only [periodStart, monthStart, yearStart]
    omega

theorem epoch_of_dvd (h : second ∣ x) : epoch x * second = x := by
  obtain ⟨k, rfl⟩ := h
  simp only [epoch, second]
  omega

theorem naturalWindow_id (hc : c.effectiveAt ≠ 0) :
    (naturalWindow tz kind x c).id = epoch (naturalWindow tz kind x c).startAt := by
  dsimp only [naturalWindow, windowId]
  rw [if_neg hc]

theorem naturalWindow_id_lt {c' : Change ζ} (hc : c.effectiveAt ≠ 0) (hc' : c'.effectiveAt ≠ 0)
    (hd : second ∣ c.effectiveAt) (hd' : second ∣ c'.effectiveAt)
    (h : (naturalWindow tz kind x c).startAt < (naturalWindow tz kind y c').startAt) :
    (naturalWindow tz kind x c).id < (naturalWindow tz kind y c').id := by
  rw [naturalWindow_id hc, naturalWindow_id hc']
  have he : epoch (naturalWindow tz kind x c).startAt * second = _ :=
    epoch_of_dvd (second_dvd_startAt hd)
  have he' : epoch (naturalWindow tz kind y c').startAt * second = _ :=
    epoch_of_dvd (second_dvd_startAt hd')
  simp only [second] at *
  omega

end Natural

/-! ## The tiling -/

/-- Windows that tile time from 1970 on, with identifiers that grow. -/
structure Tiles (window : ℤ → Option (Window ζ)) : Prop where
  /-- Every instant is in the window returned for it. -/
  covers : ∀ x, 0 ≤ x → ∃ w, window x = some w ∧ 0 ≤ w.startAt ∧ w.startAt ≤ x ∧ x < w.endAt
  /-- Every instant of a window has that window. -/
  whole : ∀ x w y, window x = some w → w.startAt ≤ y → y < w.endAt → window y = some w
  /-- A window starts where another ends. -/
  adjoins : ∀ x w, window x = some w → ∃ w', window w.endAt = some w' ∧ w'.startAt = w.endAt
  /-- Later instants are in the same window, or in a later one with a greater identifier. -/
  ordered : ∀ x y w w', window x = some w → window y = some w' → x ≤ y →
    w = w' ∨ w.endAt ≤ w'.startAt ∧ w.id < w'.id

section Tiling

variable {kind : Period} {rows : List (Change ζ)} {c c' : Change ζ} {x y : ℤ}

variable (h : Chain tz kind rows)

include h

theorem Chain.mem_naturalWindow (hz : tz.Regular) (hc : latestChange rows x = some c) :
    0 ≤ (naturalWindow tz kind x c).startAt ∧ (naturalWindow tz kind x c).startAt ≤ x ∧
      x < (naturalWindow tz kind x c).endAt := by
  obtain ⟨hmem, hx⟩ := mem_of_latestChange hc
  exact ⟨(h.effectiveAt c hmem).1.trans (le_max_right _ _), naturalWindow_mem kind hz hx⟩

theorem Chain.latest_eq (hc : latestChange rows x = some c)
    (hc' : latestChange rows y = some c') (hxy : x ≤ y) (hx' : c'.effectiveAt ≤ x) : c' = c := by
  obtain ⟨hmem, hx⟩ := mem_of_latestChange hc
  obtain ⟨hmem', -⟩ := mem_of_latestChange hc'
  obtain ⟨c₁, hc₁, hle₁⟩ := exists_latestChange hmem' hx'
  obtain ⟨c₂, hc₂, hle₂⟩ := exists_latestChange hmem (hx.trans hxy)
  cases hc.symm.trans hc₁
  cases hc'.symm.trans hc₂
  exact h.newestFirst.eq_of_effectiveAt_eq hmem' hmem (le_antisymm hle₁ hle₂)

variable (hz : tz.Regular)

include hz

/-- A row that takes effect after an instant does so at a boundary of the calendar of that instant,
and not before the end of its window. -/
theorem Chain.later_change
    (hc : latestChange rows x = some c) (hmem : c' ∈ rows) (hx : x < c'.effectiveAt) :
    ∃ i, x < periodBoundary tz kind c.timeZone i ∧
      (naturalWindow tz kind x c).endAt ≤ periodBoundary tz kind c.timeZone i ∧
      periodBoundary tz kind c.timeZone i ≤ c'.effectiveAt := by
  obtain ⟨n, hn, hle⟩ := exists_nextChange hmem hx
  obtain ⟨i, rfl⟩ := h.next hc hn
  have hlt := (mem_of_nextChange hn).1
  exact ⟨i, hlt, next_le_of_lt (hz.periodBoundary_gc kind c.timeZone) hlt, hle⟩

theorem Chain.adjoins (hc : latestChange rows x = some c) :
    ∃ c', latestChange rows (naturalWindow tz kind x c).endAt = some c' ∧
      (naturalWindow tz kind (naturalWindow tz kind x c).endAt c').startAt =
        (naturalWindow tz kind x c).endAt := by
  obtain ⟨hmem, hx⟩ := mem_of_latestChange hc
  obtain ⟨h0, hle, hlt⟩ := h.mem_naturalWindow hz hc
  obtain ⟨c', hc'⟩ := h.exists_latest (h0.trans (hle.trans hlt.le))
  refine ⟨c', hc', ?_⟩
  obtain ⟨hmem', hle'⟩ := mem_of_latestChange hc'
  rcases le_or_gt c'.effectiveAt x with hx' | hx'
  · -- nothing changes up to the end, so the calendar is the same
    obtain rfl := h.latest_eq hc hc' hlt.le hx'
    exact naturalWindow_endAt hz hx
  · -- a change after `x` in effect at the end takes effect there
    obtain ⟨i, -, hend, hi⟩ := h.later_change hz hc hmem' hx'
    exact le_antisymm (naturalWindow_mem kind hz hle').1 ((hend.trans hi).trans (le_max_right _ _))

theorem Chain.id_lt_later (hx : 0 ≤ x)
    (hc : latestChange rows x = some c) (hmem' : c' ∈ rows) (hx' : x < c'.effectiveAt) :
    (naturalWindow tz kind x c).id < (naturalWindow tz kind y c').id := by
  obtain ⟨i, hlt, hend, hi⟩ := h.later_change hz hc hmem' hx'
  obtain ⟨hmem, hcx⟩ := mem_of_latestChange hc
  obtain ⟨-, hd⟩ := h.effectiveAt c hmem
  obtain ⟨-, hd'⟩ := h.effectiveAt c' hmem'
  have hstart' : c'.effectiveAt ≤ (naturalWindow tz kind y c').startAt := le_max_right _ _
  by_cases h0 : c.effectiveAt = 0
  · -- the number of a period is less than the second at which a later one starts
    obtain rfl := h.newestFirst.eq_of_effectiveAt_eq hmem h.init_mem h0
    have hj : periodAt tz kind tz.utc x < i := by
      rw [← not_le, hz.periodBoundary_gc] at hlt
      exact not_le.mp hlt
    have hj0 : periodOf kind 0 ≤ periodAt tz kind tz.utc x := by
      rw [periodAt_utc]
      refine (periodStart_gc kind).monotone_u ?_
      simp only [second]
      omega
    have hlt' := periodOf_lt_boundary kind hj0 hj
    have he' : epoch (naturalWindow tz kind y c').startAt * second = _ :=
      epoch_of_dvd (second_dvd_startAt hd')
    rw [naturalWindow_id_initial hx, naturalWindow_id (by omega)]
    rw [periodBoundary_utc] at hi
    simp only [second] at *
    omega
  · have hle := naturalWindow_mem kind hz hcx
    exact naturalWindow_id_lt h0 (by omega) hd hd' (by omega)

theorem Chain.ordered (hx : 0 ≤ x) (hxy : x ≤ y)
    (hc : latestChange rows x = some c) (hc' : latestChange rows y = some c') :
    naturalWindow tz kind x c = naturalWindow tz kind y c' ∨
      (naturalWindow tz kind x c).endAt ≤ (naturalWindow tz kind y c').startAt ∧
        (naturalWindow tz kind x c).id < (naturalWindow tz kind y c').id := by
  obtain ⟨hmem, hcx⟩ := mem_of_latestChange hc
  obtain ⟨hmem', -⟩ := mem_of_latestChange hc'
  rcases le_or_gt c'.effectiveAt x with hx' | hx'
  · obtain rfl := h.latest_eq hc hc' hxy hx'
    rcases naturalWindow_ordered kind hz hxy with he | ⟨hle, hlt⟩
    · exact .inl he
    · refine .inr ⟨hle, ?_⟩
      by_cases h0 : c'.effectiveAt = 0
      · obtain rfl := h.newestFirst.eq_of_effectiveAt_eq hmem h.init_mem h0
        rw [naturalWindow_id_initial hx, naturalWindow_id_initial (hx.trans hxy)]
        exact hlt
      · have hd := (h.effectiveAt c' hmem).2
        have hx := naturalWindow_mem kind hz hcx
        exact naturalWindow_id_lt h0 h0 hd hd (by omega)
  · obtain ⟨i, -, hend, hi⟩ := h.later_change hz hc hmem' hx'
    exact .inr ⟨(hend.trans hi).trans (le_max_right _ _), h.id_lt_later hz hx hc hmem' hx'⟩

/-- The windows of a chain of schedules follow each other without gap or overlap. -/
theorem Chain.tiles : Tiles (budgetWindow tz rows kind) := by
  have hsome : ∀ x w, budgetWindow tz rows kind x = some w →
      ∃ c, latestChange rows x = some c ∧ naturalWindow tz kind x c = w := by
    intro x w hw
    rw [h.budgetWindow_eq hz] at hw
    exact Option.map_eq_some_iff.mp hw
  have hof : ∀ x c, latestChange rows x = some c →
      budgetWindow tz rows kind x = some (naturalWindow tz kind x c) := by
    intro x c hc
    rw [h.budgetWindow_eq hz, hc, Option.map_some]
  constructor
  case covers =>
    intro x hx
    obtain ⟨c, hc⟩ := h.exists_latest hx
    exact ⟨_, hof x c hc, h.mem_naturalWindow hz hc⟩
  case whole =>
    intro x w y hw hle hlt
    obtain ⟨c, hc, rfl⟩ := hsome x w hw
    have hy := h.latest_until hz hc ((le_max_right _ _).trans hle) hlt
    rw [hof y c hy, naturalWindow_eq_of_mem hz hle hlt]
  case adjoins =>
    intro x w hw
    obtain ⟨c, hc, rfl⟩ := hsome x w hw
    obtain ⟨c', hc', he⟩ := h.adjoins hz hc
    exact ⟨_, hof _ c' hc', he⟩
  case ordered =>
    intro x y w w' hw hw' hxy
    obtain ⟨c, hc, rfl⟩ := hsome x w hw
    obtain ⟨c', hc', rfl⟩ := hsome y w' hw'
    obtain ⟨hmem, hx⟩ := mem_of_latestChange hc
    exact h.ordered hz ((h.effectiveAt c hmem).1.trans hx) hxy hc hc'

end Tiling

/-! ## Schedules -/

section Schedule

variable {kind : Period} {rows : List (Change ζ)} {x now : ℤ}

theorem Chain.filter (h : Chain tz kind rows) (hnow : 0 ≤ now) :
    ∃ c rest, rows.filter (fun r => r.effectiveAt ≤ now) = c :: rest ∧
      Chain tz kind (c :: rest) := by
  induction h with
  | init => exact ⟨_, [], by simp [hnow], .init⟩
  | @cons c rows zone i h lt ih =>
    rcases le_or_gt (periodBoundary tz kind c.timeZone i) now with hle | hgt
    · have hnew := (Chain.cons zone i h lt).newestFirst
      refine ⟨_, _, filter_eq_self.mpr fun q hq => ?_, .cons zone i h lt⟩
      rcases mem_cons.mp hq with rfl | hq
      · simpa using hle
      · have := rel_of_pairwise_cons hnew hq
        simp only [decide_eq_true_eq]
        exact this.le.trans hle
    · rwa [filter_cons_of_neg (by simpa using hgt)]

/-- What a schedule does to the rows of a kind. -/
theorem Chain.scheduleKind (h : Chain tz kind rows) (hz : tz.Regular) (hnow : 0 ≤ now) (zone : ζ) :
    ∃ rows', scheduleKind tz zone now kind rows = some rows' ∧ Chain tz kind rows' ∧
      ∀ x ≤ now, latestChange rows' x = latestChange rows x := by
  obtain ⟨c, rest, hkept, hchain⟩ := h.filter hnow
  have hold : ∀ q ∈ c :: rest, q.effectiveAt ≤ now := by
    intro q hq
    rw [← hkept] at hq
    simpa using (mem_filter.mp hq).2
  have hlatest : latestChange (c :: rest) now = some c := by
    refine hchain.newestFirst.latestChange_eq mem_cons_self (hold c mem_cons_self) ?_
    intro q hq _
    rcases mem_cons.mp hq with rfl | hq
    · exact le_rfl
    · exact (rel_of_pairwise_cons hchain.newestFirst hq).le
  have hsame : ∀ x ≤ now, latestChange (c :: rest) x = latestChange rows x := by
    intro x hx
    rw [← hkept]
    exact latestChange_filter hx
  have hend := (naturalWindow_mem kind hz (hold c mem_cons_self)).2
  rw [Budget.scheduleKind, hkept]
  simp only [hchain.budgetWindow_eq hz, hlatest, Option.map_some, Option.bind_some]
  split
  · exact ⟨_, rfl, hchain, hsame⟩
  · rw [if_neg]
    · refine ⟨_, rfl, .cons zone _ hchain ?_, fun x hx => ?_⟩
      · exact (hold c mem_cons_self).trans_lt hend
      · rw [latestChange_cons_of_lt (hx.trans_lt hend)]
        exact hsame x hx
    · simp only [any_eq_true, decide_eq_true_eq, not_exists, not_and]
      intro q hq he
      have := hold q hq
      omega

theorem Chain.scheduleKind_eq_none (h : Chain tz kind rows) (hnow : now < 0) (zone : ζ) :
    Budget.scheduleKind tz zone now kind rows = none := by
  have hkept : rows.filter (fun r => r.effectiveAt ≤ now) = [] := by
    refine filter_eq_nil_iff.mpr fun q hq => ?_
    have := (h.effectiveAt q hq).1
    simp only [decide_eq_true_eq]
    omega
  rw [Budget.scheduleKind, hkept]
  rfl

/-- A call to schedule a zone keeps the chain and does not touch the past. -/
theorem callSchedule_chain {tables : Tables ζ} (hz : tz.Regular)
    (h : ∀ kind, Chain tz kind (tables kind)) (zone : ζ) (now : ℤ) (kind : Period) :
    Chain tz kind (callSchedule tz tables (zone, now) kind) ∧
      ∀ x ≤ now, latestChange (callSchedule tz tables (zone, now) kind) x =
        latestChange (tables kind) x := by
  unfold callSchedule scheduleBudgetZone
  rcases lt_or_ge now 0 with hnow | hnow
  · rw [(h .day).scheduleKind_eq_none hnow]
    exact ⟨h kind, fun _ _ => rfl⟩
  · obtain ⟨day, hday, hd⟩ := (h .day).scheduleKind hz hnow zone
    obtain ⟨week, hweek, hw⟩ := (h .week).scheduleKind hz hnow zone
    obtain ⟨month, hmonth, hm⟩ := (h .month).scheduleKind hz hnow zone
    simp only [hday, hweek, hmonth, Option.bind_eq_bind, Option.bind_some, Option.getD_some]
    cases kind with
    | day => exact hd
    | week => exact hw
    | month => exact hm

/-- Whatever zones are scheduled, and when, the tables stay a chain. -/
theorem run_chain (hz : tz.Regular) (calls : List (ζ × ℤ)) (kind : Period) :
    Chain tz kind (run (callSchedule tz) (initialTables tz) calls kind) := by
  refine run_induction (P := fun tables : Tables ζ => ∀ kind, Chain tz kind (tables kind))
    ?_ calls ?_ kind
  · intro tables call h kind
    exact (callSchedule_chain hz h call.1 call.2 kind).1
  · exact fun _ => .init

end Schedule

/-- **Budget windows under changes of the zone.**  In zones whose local date does not go back and
that stay within two days of UTC, the windows of each kind tile time from 1970 on after any
sequence of schedules, with identifiers that grow; and a further schedule alters no window of an
instant up to its own. -/
theorem windows_tile (tz : TimeZones ζ) (hz : tz.Regular) (calls : List (ζ × ℤ)) (kind : Period) :
    Tiles (budgetWindow tz (run (callSchedule tz) (initialTables tz) calls kind) kind) ∧
      ∀ zone now x, x ≤ now →
        budgetWindow tz
            (callSchedule tz (run (callSchedule tz) (initialTables tz) calls) (zone, now) kind)
            kind x =
          budgetWindow tz (run (callSchedule tz) (initialTables tz) calls kind) kind x := by
  have hchain := run_chain hz calls
  refine ⟨(hchain kind).tiles hz, fun zone now x hx => ?_⟩
  obtain ⟨hnew, hlatest⟩ := callSchedule_chain hz hchain zone now kind
  rw [hnew.budgetWindow_eq hz, (hchain kind).budgetWindow_eq hz, hlatest x hx]

/-- UTC and a zone a fixed number of seconds ahead of it. -/
def fixedZones (ahead : ℤ) : TimeZones Bool where
  utc := false
  offset zone _ := if zone then ahead else 0
  offset_utc _ := rfl

theorem fixedZones_monotone (ahead : ℤ) (zone : Bool) :
    Monotone ((fixedZones ahead).civilDate zone) := by
  intro x y h
  simp only [TimeZones.civilDate, fixedZones, second]
  omega

/-- Weeks, after a switch to a zone one hour ahead of UTC. -/
theorem windows_tile_one_hour :
    Tiles (budgetWindow (fixedZones 3600)
      (run (callSchedule (fixedZones 3600)) (initialTables (fixedZones 3600)) [(true, 0)] .week)
      .week) :=
  (windows_tile (fixedZones 3600)
    ⟨fixedZones_monotone 3600, fun zone _ => by cases zone <;> simp [fixedZones]⟩
    [(true, 0)] .week).1

/-- A hundred hours ahead of UTC the search for a boundary starts past it, and the first instant
of the new calendar lies before its window. -/
theorem hundred_hours_ahead :
    (∀ zone, Monotone ((fixedZones 360000).civilDate zone)) ∧
      ∃ w, budgetWindow (fixedZones 360000)
          (run (callSchedule (fixedZones 360000)) (initialTables (fixedZones 360000))
            [(true, 0)] .day) .day (86400 * second) = some w ∧
        86400 * second < w.startAt := by
  refine ⟨fixedZones_monotone 360000, ?_⟩
  have hrows : run (callSchedule (fixedZones 360000)) (initialTables (fixedZones 360000))
      [(true, 0)] .day = [⟨86400 * second, true⟩, ⟨0, false⟩] := by decide
  have hbound : (fixedZones 360000).civilBoundary 5 true = 259200 * second := by
    refine congrArg (· * second) (bisect_eq_low _ _ fun t ht => ?_)
    rw [TimeZones.civilDate_second]
    simp only [fixedZones, if_true, decide_eq_false_iff_not]
    omega
  have hdate : dateTrunc .day ((fixedZones 360000).civilDate true (86400 * second)) = 5 := by
    decide
  have hlatest : latestChange [⟨86400 * second, true⟩, ⟨0, false⟩] (86400 * second) =
      some ⟨86400 * second, true⟩ := by decide
  refine ⟨_, by rw [hrows, budgetWindow, hlatest]; rfl, ?_⟩
  dsimp only
  rw [hdate, hbound]
  decide

end Olp.Budget
