import Olp.Cost.Pending

/-!
# `reconcile_cost.lua`

Install a snapshot of an owner's accrued spend, and with it what it replaces: the
reservation of the request it accounts for, and the provisional exposure of the
durable ledger.  A balance only ever rises within its window; a stale projection of
the ledger is refused before any balance changes.

The script tells `missing`, `stale` and `malformed` balances apart and treats them
alike, as balances to be replaced; `currentBalance` answers none for all of them.
-/

namespace Olp.Cost

open Limits Valkey

/-! ## Arguments -/

/-- A projection of the durable ledger. -/
structure Projection where
  version : Nat
  versionText : Text
  amount : Text
  blocked : Text

/-- The accrued spend of an owner, with the spend normalised. -/
structure Snapshot where
  window : Period → Option Nat
  accrued : Period → Option Text
  unpriced : Nat
  override : Nat
  request : Text

/-- `ARGV[16]` to `ARGV[18]`. -/
def parseProjection (argv : List Text) : Option Projection :=
  match number argv 16, normalizeDecimal (some (arg argv 17)) with
  | some version, some amount =>
    if arg argv 18 ≠ ['0'] ∧ arg argv 18 ≠ ['1'] then none
    else some ⟨version, arg argv 16, amount, arg argv 18⟩
  | _, _ => none

/-- `snapshot_week`. -/
def weekArg (argv : List Text) : Option Nat := parseSafeUnsignedInteger (some (argv.getD 7 ['0']))

/-- `weekly_accrued`: none when the snapshot has no weekly spend. -/
def weeklyArg (argv : List Text) : Option Text :=
  if arg argv 9 = [] then none else normalizeDecimal (some (arg argv 9))

/-- The checks on the balances' arguments; none for `invalid_arguments`. -/
def parseSnapshot (argv : List Text) : Option Snapshot :=
  if arg argv 9 ≠ [] ∧ (weekArg argv = none ∨ weeklyArg argv = none) then none
  else
    match number argv 1, normalizeDecimal (some (arg argv 2)), number argv 3,
        normalizeDecimal (some (arg argv 4)), number argv 5, number argv 6 with
    | some day, some daily, some month, some monthly, some unpriced, some override =>
      if arg argv 7 ≠ [] ∧ validLease (arg argv 7) = false then none
      else
        some {
          window := fun | .day => some day | .month => some month | .week => weekArg argv
          accrued := fun | .day => some daily | .month => some monthly | .week => weeklyArg argv
          unpriced := unpriced
          override := override
          request := arg argv 7 }
    | _, _, _, _, _, _ => none

/-- `failure` of `reconcile_cost.lua`. -/
def reconcileFailure (detail : Detail) : Reply := ⟨.failed, detail, [0, 0]⟩

/-! ## The durable projection -/

/-- A projection older than the stored one, or another of the same version. -/
def staleProjection (σ : Server CostKey) (d : Projection) : Bool :=
  match σ.hash? .durable with
  | .error _ => true
  | .ok h =>
    match h.lookup versionField with
    | none => false
    | some stored =>
      match parseSafeUnsignedInteger (some stored) with
      | none => true
      | some version =>
        d.version < version ∨ version = d.version ∧
          (h.lookup amountField ≠ some d.amount ∨ h.lookup blockedField ≠ some d.blocked)

/-- Install a projection; it never expires. -/
def installProjection (d : Projection) : Script CostKey Unit := do
  hset .durable [(versionField, d.versionText), (amountField, d.amount), (blockedField, d.blocked)]
  .write fun σ => σ.persist .durable

/-! ## Intervals -/

/-- The interval a snapshot is installed under. -/
structure Interval where
  window : Nat
  ttl : Nat
  active : Bool
  bounds : Option (Nat × Nat)

/-- The first of the two arguments that bound a period. -/
def boundsArg : Period → Nat
  | .day => 10
  | .month => 12
  | .week => 14

/-- The current interval recorded with a balance, when it differs from the given one. -/
def otherInterval (σ : Server CostKey) (p : Period) (nowMs first last : Nat)
    (snapshot : Option Nat) : Bool :=
  match σ.hash? (balanceKey p) with
  | .error _ => false
  | .ok h =>
    match parseSafeUnsignedInteger (h.lookup startsField),
        parseSafeUnsignedInteger (h.lookup endsField) with
    | some priorFirst, some priorLast =>
      priorFirst ≤ nowMs ∧ nowMs < priorLast ∧
        (priorFirst ≠ first ∨ priorLast ≠ last ∨
          parseSafeUnsignedInteger (h.lookup windowField) ≠ snapshot)
    | _, _ => false

/-- A balance without recorded bounds, or one that is no balance. -/
def unbounded (σ : Server CostKey) (p : Period) : Bool :=
  match σ.hash? (balanceKey p) with
  | .error _ => true
  | .ok h => h.lookup startsField = none

/-- `interval`.  Calendar evidence supplies boundaries; the clock decides whether they
are current, and a current interval is not replaced by another. -/
def interval (σ : Server CostKey) (argv : List Text) (nowMs : Nat) (p : Period)
    (snapshot : Option Nat) (calendar : Window) : Option Interval :=
  if argv.length < 15 then some ⟨calendar.id, calendar.ttl, unbounded σ p, none⟩
  else
    match number argv (boundsArg p), number argv (boundsArg p + 1), snapshot with
    | some first, some last, some window =>
      if last ≤ first then none
      else
        some ⟨window, last - nowMs,
          first ≤ nowMs ∧ nowMs < last ∧ ¬ otherInterval σ p nowMs first last snapshot,
          some (first, last)⟩
    | _, _, _ => none

/-! ## Balances -/

/-- `read_state` of `reconcile_cost.lua`: the spend and the unpriced marker of a
balance of the given window. -/
def currentBalance (σ : Server CostKey) (p : Period) (window : Nat) : Option (Text × Nat) :=
  match σ.hash? (balanceKey p) with
  | .error _ => none
  | .ok h =>
    let unpriced :=
      if p = .month then parseSafeUnsignedInteger (h.lookup unpricedField) else some 0
    match parseSafeUnsignedInteger (h.lookup windowField),
        normalizeDecimal (h.lookup accruedField), unpriced with
    | some stored, some accrued, some unpriced =>
      if stored = window then some (accrued, unpriced) else none
    | _, _, _ => none

/-- Replace a balance of another window, or raise the one of this window. -/
def raiseBalance (p : Period) (window : Nat) (accrued : Text) (unpriced : Nat) :
    Script CostKey Unit := do
  match ← .read fun σ => currentBalance σ p window with
  | none =>
    .write fun σ => σ.del (balanceKey p)
    hset (balanceKey p) <|
      [(windowField, Text.ofNat window), (accruedField, accrued)] ++
        if p = .month then [(unpricedField, Text.ofNat unpriced)] else []
  | some (current, currentUnpriced) =>
    hsetIf ((compareDecimal (some current) (some accrued)).any (· < 0)) (balanceKey p)
      [(accruedField, accrued)]
    hsetIf (p = .month ∧ currentUnpriced < unpriced) (balanceKey p)
      [(unpricedField, Text.ofNat unpriced)]

/-- `record_interval`. -/
def recordInterval (p : Period) (bounds : Option (Nat × Nat)) : Script CostKey Unit :=
  match bounds with
  | none => pure ()
  | some (first, last) =>
    hset (balanceKey p)
      [(startsField, Text.ofNat first), (endsField, Text.ofNat last)]

/-- Install the spend of one period when its interval is the current one. -/
def installBalance (p : Period) (i : Interval) (snapshot : Option Nat) (accrued : Text)
    (unpriced : Nat) : Script CostKey Bool := do
  if i.active = true ∧ snapshot = some i.window then
    raiseBalance p i.window accrued unpriced
    recordInterval p i.bounds
    .write fun σ => σ.pexpire (balanceKey p) i.ttl
    pure true
  else pure false

/-- The three intervals, none when one of them is no interval; a week needs its key. -/
def intervals (σ : Server CostKey) (keys : Nat) (argv : List Text) (nowMs : Nat) (s : Snapshot)
    (calendar : Period → Window) : Option (Period → Interval) :=
  match interval σ argv nowMs .day (s.window .day) (calendar .day),
      interval σ argv nowMs .month (s.window .month) (calendar .month),
      (if 5 ≤ keys then interval σ argv nowMs .week (s.window .week) (calendar .week)
        else some ⟨(calendar .week).id, (calendar .week).ttl, false, none⟩) with
  | some day, some month, some week =>
    some fun | .day => day | .month => month | .week => week
  | _, _, _ => none

/-- Install one period's spend if the snapshot carries it. -/
def installPeriod (s : Snapshot) (i : Period → Interval) (p : Period) : Script CostKey Bool :=
  match s.accrued p with
  | none => pure false
  | some accrued => installBalance p (i p) (s.window p) accrued s.unpriced

/-- Stop reserving the request that a snapshot accounts for, if it names one. -/
def releaseRequest (request : Text) : Script CostKey Unit :=
  if request = [] then pure ()
  else do
    let _ ← releaseLease request
    pure ()

/-- Install the durable projection that came with a snapshot, if one did. -/
def installExposure : Option Projection → Script CostKey Unit
  | none => pure ()
  | some d => installProjection d

/-- Everything `reconcile_cost.lua` writes. -/
def installSnapshot (s : Snapshot) (i : Period → Interval) (d : Option Projection) :
    Script CostKey Reply := do
  let daily ← installPeriod s i .day
  let monthly ← installPeriod s i .month
  let _ ← installPeriod s i .week
  releaseRequest s.request
  installExposure d
  pure ⟨.ok, .ok, [daily.toNat, monthly.toNat]⟩

/-- `ARGV[16]` to `ARGV[18]` when the sixth key is given: none when they are invalid
or stale. -/
def projectionArg (σ : Server CostKey) (keys : Nat) (argv : List Text) :
    Option (Option Projection) :=
  if keys = 6 then
    match parseProjection argv with
    | none => none
    | some d => if staleProjection σ d then none else some (some d)
  else some none

/-- The part of `reconcile_cost.lua` that reads and does not write. -/
def planReconcile (keys : Nat) (argv : List Text) (σ : Server CostKey) :
    Except Reply (Snapshot × (Period → Interval) × Option Projection) :=
  if ¬ ((keys = 4 ∧ argv.length = 7) ∨ (keys = 5 ∧ (argv.length = 9 ∨ argv.length = 15)) ∨
      (keys = 6 ∧ argv.length = 18)) then .error (reconcileFailure .invalidArguments)
  else
    match projectionArg σ keys argv, parseSnapshot argv with
    | some d, some s =>
      match currentTime s.override σ.micros with
      | none => .error (reconcileFailure .invalidServerTime)
      | some nowMs =>
        let calendar := windowAt nowMs
        if (calendar .day).ttl < 1 ∨ (calendar .month).ttl < 1 then
          .error (reconcileFailure .invalidServerTime)
        else
          match intervals σ keys argv nowMs s calendar with
          | none => .error (reconcileFailure .invalidArguments)
          | some i => .ok (s, i, d)
    | _, _ => .error (reconcileFailure .invalidArguments)

/-- `reconcile_cost.lua`. -/
def reconcileCost (keys : Nat) (argv : List Text) : Script CostKey Reply := do
  match ← .read (planReconcile keys argv) with
  | .error reply => pure reply
  | .ok (s, i, d) => installSnapshot s i d

end Olp.Cost
