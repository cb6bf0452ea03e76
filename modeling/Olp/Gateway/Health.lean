import Olp.Run
import Mathlib.Algebra.Order.Ring.Int
import Mathlib.Data.List.Basic
import Mathlib.Data.List.Induction
import Mathlib.Tactic.Common

/-!
# The circuit of a provider

`record` of `health.go` folds the attempts against a provider into statistics and a circuit.  A
failure that counts falls into a window of thirty seconds, and the fifth of one window opens the
circuit.  The window does not slide: it starts with a failure that finds none, and the next one
starts only with a failure behind its end.  Instants are nanoseconds since the epoch.
-/

namespace Olp.Gateway

open List

/-- `AttemptFact.Class`; `other` is every class that `record` does not name. -/
inductive Class
  | success
  | rateLimit
  | upstreamServer
  | connect
  | timeout
  | protocol
  | ambiguous
  | other
deriving DecidableEq, Repr

/-- What `record` reads of an `AttemptFact`; of the interaction only whether there is one. -/
structure AttemptFact where
  outcome : Class
  localRefusal : Bool
  interaction : Bool
  carried : Bool
  status : ℤ
  duration : ℤ

structure Bucket where
  attempts : ℤ
  successes : ℤ
  rateLimits : ℤ
  serverErrors : ℤ
  transportErrors : ℤ
  latency : ℤ

/-- What `providerHealth` has of the circuit; its zero time, before every instant, is no value. -/
structure Circuit where
  failures : ℕ
  firstFailure : ℤ
  openUntil : Option ℤ
  probing : Bool

structure ProviderHealth extends Circuit where
  buckets : ℤ → Option Bucket
  last : ℤ
  cooldowns : String → Option ℤ

def second : ℤ := 1000000000

def circuitFailures : ℕ := 5

def circuitWindow : ℤ := 30 * second

def circuitOpenFor : ℤ := 30 * second

/-- `healthRetention`, in minutes. -/
def healthRetention : ℤ := 24 * 60

def minuteOf (now : ℤ) : ℤ := (now / second).tdiv 60

namespace Circuit

/-- `open` -/
def isOpen (c : Circuit) (now : ℤ) : Bool := c.probing || c.openUntil.any (now < ·)

def opened (c : Circuit) (now : ℤ) : Circuit :=
  { c with openUntil := some (now + circuitOpenFor), failures := 0 }

/-- A failure finds no window, or one that is over. -/
def Restarts (c : Circuit) (now : ℤ) : Prop :=
  c.failures = 0 ∨ now - c.firstFailure > circuitWindow

instance (c : Circuit) (now : ℤ) : Decidable (c.Restarts now) :=
  inferInstanceAs (Decidable (_ ∨ _))

/-- What `record` does with a failure that counts. -/
def failed (c : Circuit) (now : ℤ) (probe : Bool) : Circuit :=
  if probe then c.opened now
  else
    let c := if c.Restarts now then { c with failures := 0, firstFailure := now } else c
    let c := { c with failures := c.failures + 1 }
    if circuitFailures ≤ c.failures then c.opened now else c

end Circuit

namespace ProviderHealth

/-- A new bucket retires the old ones, and the cooldowns that ran out. -/
def provideBucket (p : ProviderHealth) (now : ℤ) : ProviderHealth :=
  if (p.buckets (minuteOf now)).isSome then p
  else
    { p with
      buckets := fun k =>
        if k = minuteOf now then some ⟨0, 0, 0, 0, 0, 0⟩
        else if k < minuteOf now - healthRetention then none
        else p.buckets k
      cooldowns := fun key => (p.cooldowns key).filter (now < ·) }

def tally (p : ProviderHealth) (now : ℤ) (f : Bucket → Bucket) : ProviderHealth :=
  { p with buckets := fun k => if k = minuteOf now then (p.buckets k).map f else p.buckets k }

/-- What `record` does before it looks at the class. -/
def attempted (p : ProviderHealth) (now : ℤ) (fact : AttemptFact) (probe : Bool) : ProviderHealth :=
  let p := { p with probing := p.probing && !probe, last := now }
  (p.provideBucket now).tally now fun b =>
    { b with attempts := b.attempts + 1, latency := b.latency + fact.duration }

def failed (p : ProviderHealth) (now : ℤ) (probe serverError : Bool) : ProviderHealth :=
  let p := p.tally now fun b =>
    if serverError then { b with serverErrors := b.serverErrors + 1 }
    else { b with transportErrors := b.transportErrors + 1 }
  { p with toCircuit := p.toCircuit.failed now probe }

/-- `record`; what it publishes to the other gateways is left out. -/
def record (p : ProviderHealth) (now : ℤ) (fact : AttemptFact) (probe : Bool) : ProviderHealth :=
  let p := p.attempted now fact probe
  if fact.localRefusal ∧ fact.outcome ≠ .success then p
  else
    match fact.outcome with
    | .success =>
      { p.tally now fun b => { b with successes := b.successes + 1 } with
        failures := 0, openUntil := none }
    | .rateLimit => p.tally now fun b => { b with rateLimits := b.rateLimits + 1 }
    | .upstreamServer => p.failed now probe true
    | .connect | .timeout | .protocol => p.failed now probe false
    | .ambiguous =>
      if fact.interaction = false ∧ fact.carried = false then p
      else p.failed now probe (500 ≤ fact.status)
    | .other => p

end ProviderHealth

/-! ## What a record does to the circuit -/

/-- The failures that count. -/
def AttemptFact.counted (f : AttemptFact) : Bool :=
  !f.localRefusal && match f.outcome with
    | .upstreamServer | .connect | .timeout | .protocol => true
    | .ambiguous => f.interaction || f.carried
    | .success | .rateLimit | .other => false

/-- An attempt that is no probe, and when it is recorded. -/
structure Attempt where
  time : ℤ
  fact : AttemptFact

def ProviderHealth.attempt (p : ProviderHealth) (a : Attempt) : ProviderHealth :=
  p.record a.time a.fact false

def Circuit.attempt (c : Circuit) (a : Attempt) : Circuit :=
  if a.fact.outcome = .success then { c with failures := 0, openUntil := none }
  else if a.fact.counted then c.failed a.time false
  else c

variable (p : ProviderHealth)

@[simp] theorem tally_toCircuit (now : ℤ) (f : Bucket → Bucket) :
    (p.tally now f).toCircuit = p.toCircuit := rfl

@[simp] theorem failed_toCircuit (now : ℤ) (probe serverError : Bool) :
    (p.failed now probe serverError).toCircuit = p.toCircuit.failed now probe := rfl

@[simp] theorem attempted_toCircuit (now : ℤ) (fact : AttemptFact) :
    (p.attempted now fact false).toCircuit = p.toCircuit := by
  simp only [ProviderHealth.attempted, ProviderHealth.provideBucket, tally_toCircuit]
  split <;> simp

/-- The circuit takes a step of its own, whatever the statistics are. -/
theorem attempt_toCircuit (a : Attempt) : (p.attempt a).toCircuit = p.toCircuit.attempt a := by
  obtain ⟨now, outcome, refusal, interaction, carried, status, duration⟩ := a
  cases outcome <;> cases refusal <;>
    simp [ProviderHealth.attempt, ProviderHealth.record, Circuit.attempt, AttemptFact.counted]
  -- an ambiguous failure counts for an interaction or for what a plugin carries
  cases interaction <;> cases carried <;> simp

theorem run_toCircuit (as : List Attempt) :
    (run ProviderHealth.attempt p as).toCircuit = run Circuit.attempt p.toCircuit as := by
  induction as generalizing p with
  | nil => rfl
  | cons a as ih => rw [run_cons, run_cons, ih, attempt_toCircuit]

/-! ## Five failures -/

namespace Circuit

variable {c : Circuit} {a first last : Attempt} {as mid : List Attempt} {now : ℤ} {n : ℕ}

/-- The attempts that failed in a way that counts. -/
def counted (as : List Attempt) : List Attempt := as.filter (·.fact.counted)

theorem attempt_of_counted (h : a.fact.counted = true) : c.attempt a = c.failed a.time false := by
  have hclass : a.fact.outcome ≠ .success := by
    intro hsuccess
    simp [AttemptFact.counted, hsuccess] at h
  simp [attempt, h, hclass]

theorem attempt_of_not_counted (h : a.fact.counted = false) (hclass : a.fact.outcome ≠ .success) :
    c.attempt a = c := by
  simp [attempt, h, hclass]

theorem run_of_no_success (h : ∀ a ∈ as, a.fact.outcome ≠ .success) :
    run attempt c as = run attempt c (counted as) := by
  induction as generalizing c with
  | nil => rfl
  | cons a as ih =>
    rw [forall_mem_cons] at h
    cases hcounted : a.fact.counted with
    | false =>
      rw [run_cons, attempt_of_not_counted hcounted h.1, ih h.2]
      simp [counted, hcounted]
    | true =>
      rw [run_cons, ih h.2]
      simp [counted, hcounted]

theorem failed_of_restarts (h : c.Restarts now) :
    c.failed now false = { c with failures := 1, firstFailure := now } := by
  simp [failed, h, circuitFailures]

theorem failed_of_few (h : ¬c.Restarts now) (hfew : c.failures + 1 < circuitFailures) :
    c.failed now false = { c with failures := c.failures + 1 } := by
  simp [failed, h, hfew]

theorem failed_of_five (h : ¬c.Restarts now) (hfive : circuitFailures ≤ c.failures + 1) :
    c.failed now false = c.opened now := by
  simp [failed, h, hfive, opened]

/-- A circuit that was closed is open behind a failure exactly if it is the fifth of its window. -/
theorem failed_isOpen_iff (h : c.isOpen now = false) :
    (c.failed now false).isOpen now = true ↔ 4 ≤ c.failures ∧ ¬c.Restarts now := by
  simp only [isOpen, Bool.or_eq_false_iff] at h
  by_cases hrestarts : c.Restarts now
  · simp [failed_of_restarts hrestarts, hrestarts, isOpen, h]
  · rcases Nat.lt_or_ge (c.failures + 1) circuitFailures with hfew | hfive
    · rw [failed_of_few hrestarts hfew]
      have hlt : ¬4 ≤ c.failures := Nat.not_le.mpr (Nat.lt_of_succ_lt_succ hfew)
      simp [isOpen, h, hlt]
    · rw [failed_of_five hrestarts hfive]
      have hge : 4 ≤ c.failures := Nat.le_of_succ_le_succ hfive
      have hlater : now < now + circuitOpenFor := lt_add_of_pos_right _ (by decide)
      simp [isOpen, opened, hlater, hge, hrestarts]

/-- A count that is out of step with the number of failures stays so. -/
theorem failed_failures_ne (now : ℤ) (h : c.failures ≠ n) (hstart : n ≠ 0 ∨ ¬c.Restarts now) :
    (c.failed now false).failures ≠ n + 1 ∧ (c.failed now false).failures < circuitFailures := by
  by_cases hrestarts : c.Restarts now
  · have hn := hstart.resolve_right (not_not.mpr hrestarts)
    simp [failed_of_restarts hrestarts, circuitFailures, hn]
  · rcases Nat.lt_or_ge (c.failures + 1) circuitFailures with hfew | hfive
    · simp [failed_of_few hrestarts hfew, h, hfew]
    · simp [failed_of_five hrestarts hfive, opened, circuitFailures]

/-- Five failures that count, with no success between them, within thirty seconds. -/
structure Five (first : Attempt) (mid : List Attempt) (last : Attempt) : Prop where
  begins : first.fact.counted = true
  three : (counted mid).length = 3
  ends : last.fact.counted = true
  success : ∀ a ∈ mid, a.fact.outcome ≠ .success
  within : last.time - first.time ≤ circuitWindow

theorem Five.isOpen_iff (h : Five first mid last) (hmid : ∀ a ∈ mid, a.time ≤ last.time)
    (hclosed : (run attempt c (first :: mid)).isOpen last.time = false) :
    (run attempt c (first :: mid ++ [last])).isOpen last.time = true ↔ c.Restarts first.time := by
  rw [run_append, run_cons attempt _ last, run_nil, attempt_of_counted h.ends,
    failed_isOpen_iff hclosed]
  obtain ⟨x, y, z, hthree⟩ := List.length_eq_three.mp h.three
  have hmem : ∀ a ∈ [x, y, z], a ∈ mid ∧ a.fact.counted = true := by
    intro a ha
    rw [← hthree] at ha
    exact mem_filter.mp ha
  simp only [forall_mem_cons] at hmem
  obtain ⟨hx, hy, hz, -⟩ := hmem
  rw [run_cons, run_of_no_success h.success, hthree]
  simp only [run_cons, run_nil, attempt_of_counted, h.begins, hx.2, hy.2, hz.2]
  by_cases hrestarts : c.Restarts first.time
  · -- none of the others restarts the window of the first
    have hin : ∀ (a : Attempt) n, a.time ≤ last.time →
        ¬Restarts { c with failures := n + 1, firstFailure := first.time } a.time := by
      intro a n ha
      have := h.within
      simp only [Restarts]
      omega
    have hstep : ∀ (a : Attempt) n, a.time ≤ last.time → n + 2 < circuitFailures →
        failed { c with failures := n + 1, firstFailure := first.time } a.time false =
          { c with failures := n + 2, firstFailure := first.time } :=
      fun a n ha hn => failed_of_few (hin a n ha) hn
    rw [failed_of_restarts hrestarts, hstep x 0 (hmid x hx.1) (by decide),
      hstep y 1 (hmid y hy.1) (by decide), hstep z 2 (hmid z hz.1) (by decide)]
    exact iff_of_true ⟨by simp, hin last 3 le_rfl⟩ hrestarts
  · have hfirst := failed_failures_ne _ (fun hzero => hrestarts (.inl hzero)) (.inr hrestarts)
    have hsecond := failed_failures_ne x.time hfirst.1 (.inl (by decide))
    have hthird := failed_failures_ne y.time hsecond.1 (.inl (by decide))
    have hlast := failed_failures_ne z.time hthird.1 (.inl (by decide))
    rw [circuitFailures] at hlast
    exact iff_of_false (fun hopen => by omega) hrestarts

/-- The window of a circuit: the failures that it has counted. -/
structure Window (first : Attempt) (mid : List Attempt) (c : Circuit) : Prop where
  begins : first.fact.counted = true
  success : ∀ a ∈ mid, a.fact.outcome ≠ .success
  failures : c.failures = (counted mid).length + 1
  firstFailure : c.firstFailure = first.time
  few : c.failures < circuitFailures

theorem Window.concat (h : Window first mid c) (hclass : a.fact.outcome ≠ .success) :
    ∀ b ∈ mid ++ [a], b.fact.outcome ≠ .success := by
  simpa [or_imp, forall_and] using ⟨h.success, hclass⟩

/-- What a circuit has counted are failures of the run, from one that started a window. -/
theorem run_window (hc : c.failures = 0) (as : List Attempt) :
    (run attempt c as).failures = 0 ∨
      ∃ before first mid, as = before ++ first :: mid ∧ Window first mid (run attempt c as) := by
  induction as using List.reverseRecOn with
  | nil => exact .inl hc
  | append_singleton as a ih =>
    rw [run_append, run_cons, run_nil]
    by_cases hclass : a.fact.outcome = .success
    · exact .inl (by simp [attempt, hclass])
    cases hcounted : a.fact.counted with
    | false =>
      rw [attempt_of_not_counted hcounted hclass]
      refine ih.imp_right ?_
      rintro ⟨before, first, mid, rfl, h⟩
      refine ⟨before, first, mid ++ [a], by simp, h.begins, h.concat hclass, ?_, h.firstFailure,
        h.few⟩
      simpa [counted, hcounted] using h.failures
    | true =>
      rw [attempt_of_counted hcounted]
      by_cases hrestarts : (run attempt c as).Restarts a.time
      · rw [failed_of_restarts hrestarts]
        exact .inr ⟨as, a, [], rfl, hcounted, by simp, rfl, rfl, (by decide : 1 < 5)⟩
      · obtain ⟨before, first, mid, rfl, h⟩ :=
          ih.resolve_left fun hzero => hrestarts (.inl hzero)
        rcases Nat.lt_or_ge ((run attempt c (before ++ first :: mid)).failures + 1)
          circuitFailures with hfew | hfive
        · rw [failed_of_few hrestarts hfew]
          refine .inr ⟨before, first, mid ++ [a], by simp, h.begins, h.concat hclass, ?_,
            h.firstFailure, hfew⟩
          simpa [counted, hcounted] using h.failures
        · rw [failed_of_five hrestarts hfive]
          exact .inl rfl

/-- What opens a circuit is the last of five failures. -/
theorem five_of_isOpen (hc : c.failures = 0)
    (hclosed : (run attempt c as).isOpen last.time = false)
    (hopen : (run attempt c (as ++ [last])).isOpen last.time = true) :
    ∃ before first mid, as = before ++ first :: mid ∧ Five first mid last := by
  rw [run_append, run_cons, run_nil] at hopen
  have hends : last.fact.counted = true := by
    by_contra hcounted
    by_cases hclass : last.fact.outcome = .success
    · simp_all [attempt, isOpen]
    · rw [attempt_of_not_counted (by simpa using hcounted) hclass, hclosed] at hopen
      cases hopen
  rw [attempt_of_counted hends, failed_isOpen_iff hclosed] at hopen
  obtain ⟨hfour, hrestarts⟩ := hopen
  simp only [Restarts, not_or, not_lt] at hrestarts
  obtain ⟨before, first, mid, rfl, h⟩ := (run_window hc as).resolve_left hrestarts.1
  have hthree : (counted mid).length = 3 := by
    have hfew := h.few
    rw [h.failures, circuitFailures] at hfew
    have hfour := h.failures ▸ hfour
    omega
  exact ⟨before, first, mid, rfl, h.begins, hthree, hends, h.success, h.firstFailure ▸ hrestarts.2⟩

end Circuit

open Circuit

/-- **The fifth failure.**  Of five failures within thirty seconds the fifth, which finds the
circuit closed, opens it exactly if the first of them starts a window, that is, if it does not fall
into the window of an earlier failure.  Only the last of five such failures opens a circuit. -/
theorem fifth_failure_opens_iff (p : ProviderHealth) :
    (∀ first mid last, Five first mid last →
      (first :: mid ++ [last]).Pairwise (·.time ≤ ·.time) →
      (run ProviderHealth.attempt p (first :: mid)).isOpen last.time = false →
      ((run ProviderHealth.attempt p (first :: mid ++ [last])).isOpen last.time = true ↔
        p.Restarts first.time)) ∧
    (p.failures = 0 → ∀ as last, (run ProviderHealth.attempt p as).isOpen last.time = false →
      (run ProviderHealth.attempt p (as ++ [last])).isOpen last.time = true →
      ∃ before first mid, as = before ++ first :: mid ∧ Five first mid last) := by
  simp only [run_toCircuit]
  refine ⟨fun first mid last hfive htimes hclosed => ?_, fun hp as last => five_of_isOpen hp⟩
  refine hfive.isOpen_iff (fun a ha => ?_) hclosed
  exact (pairwise_append.mp htimes).2.2 a (mem_cons_of_mem _ ha) last (mem_singleton_self _)

/-- A provider without attempts. -/
def ProviderHealth.fresh : ProviderHealth := ⟨⟨0, 0, none, false⟩, fun _ => none, 0, fun _ => none⟩

/-- A connection that failed, after so many seconds. -/
def unconnected (seconds : ℤ) : Attempt :=
  ⟨seconds * second, ⟨.connect, false, false, false, 0, 0⟩⟩

theorem fifth_failure_opens_iff_fresh : (run ProviderHealth.attempt .fresh
    ([0, 1, 2, 3, 4].map unconnected)).isOpen (4 * second) = true :=
  ((fifth_failure_opens_iff .fresh).1 (unconnected 0) ([1, 2, 3].map unconnected) (unconnected 4)
    ⟨rfl, rfl, rfl, by decide, by decide⟩ (by decide) (by decide)).mpr (.inl rfl)

/-- The last five of these failures lie within twelve seconds.  The circuit was never opened, as
two windows share them. -/
theorem five_failures_in_two_windows : ∃ p,
    p = run ProviderHealth.attempt .fresh ([0, 20, 25, 29, 31, 32].map unconnected) ∧
      Five (unconnected 20) ([25, 29, 31].map unconnected) (unconnected 32) ∧
      p.openUntil = none ∧ p.isOpen (32 * second) = false :=
  ⟨_, rfl, ⟨rfl, rfl, rfl, by decide, by decide⟩, by decide, by decide⟩

end Olp.Gateway
