import Olp.Cost.Pending

/-!
# `reserve_cost.lua`

Admit one request against the cost windows of an owner.  The script reads its
arguments, then judges the owner's balances and durable exposure without writing
anything (`assess`), and only then looks at the pending reservations: a request
that nothing could price is admitted on accrued spend alone, a priced one must fit
beside what is spent and what other requests in flight may still spend.

Budget increases arrive as a JSON text.  Its decoder `cjson.decode` is a parameter
of the model: it answers none for a text that is no JSON or no table, and a field
of a grant is none when it has another type than the script asks for.
-/

namespace Olp.Cost

open Limits Valkey

/-! ## Arguments -/

/-- `ARGV[4]`: an availability check, its forgiving variant, or a reservation. -/
inductive Mode
  | check
  | verify
  | reserve
deriving DecidableEq, Repr

/-- The arguments of `reserve_cost.lua`. -/
structure Request where
  limit : Period → Option Amount
  override : Nat
  mode : Mode
  amount : Amount
  lease : Text
  leaseTtl : Nat
  increases : Text
  durable : Bool

def Request.priced (r : Request) : Bool := 0 < r.amount.hi ∨ 0 < r.amount.lo

/-- `parse_limit`: positive and below `10 ^ 12`. -/
def parseLimit (raw : Option Text) : Option Amount :=
  (parseAmount raw).filter fun a => ¬ (unit ≤ a.hi ∨ (a.hi = 0 ∧ a.lo = 0))

/-- The argument that limits a period; an empty one disables it. -/
def limitArg (argv : List Text) : Period → Text
  | .day => arg argv 1
  | .month => arg argv 2
  | .week => arg argv 7

def modeOf (raw : Text) : Mode :=
  if raw = "verify".toList then .verify else if raw = "check".toList then .check else .reserve

/-- The checks on the arguments; none for `invalid_arguments`. -/
def parseReserve (keys : Nat) (argv : List Text) : Option Request :=
  if ¬ ((keys = 4 ∧ argv.length = 6) ∨
      ((keys = 5 ∨ keys = 6) ∧ (argv.length = 7 ∨ argv.length = 8))) then none
  else
    let limit p := if limitArg argv p = [] then none else parseLimit (some (limitArg argv p))
    let mode := modeOf (arg argv 4)
    let amount := if mode = .reserve then parseAmount (some (arg argv 4)) else some .zero
    match number argv 3, amount, number argv 6 with
    | some override, some amount, some leaseTtl =>
      let r : Request :=
        ⟨limit, override, mode, amount, arg argv 5, leaseTtl, arg argv 8, keys = 6⟩
      if (r.priced = true ∧ (leaseTtl < 1 ∨ validLease r.lease = false)) ∨
          ∃ p ∈ periods, limitArg argv p ≠ [] ∧ limit p = none then none
      else some r
    | _, _, _ => none

/-! ## Balances -/

/-- How a balance that could be read relates to the current window. -/
inductive BalanceState
  | disabled
  | missing
  | stale
  | current
deriving DecidableEq, Repr

/-- What is known of a window: its state, what is spent in it, its identifier and the
time left. -/
structure Reading where
  state : BalanceState
  spent : Amount
  window : Window

/-- The fields of a balance that must be there together. -/
def balanceFields : Period → List Text
  | .month => [windowField, accruedField, unpricedField]
  | _ => [windowField, accruedField]

/-- The last part of `read_state`: the stored window against the current one. -/
def readWindow (h : Hash) (p : Period) (window : Window) (fallbackTtl : Nat) : Option Reading :=
  match parseSafeUnsignedInteger (h.lookup windowField),
      parseAmount (h.lookup accruedField) with
  | some stored, some accrued =>
    if window.id < stored then none
    else if p = .month ∧ parseSafeUnsignedInteger (h.lookup unpricedField) = none then none
    else if stored ≠ window.id then some ⟨.stale, .zero, ⟨window.id, fallbackTtl⟩⟩
    else some ⟨.current, accrued, window⟩
  | _, _ => none

/-- `read_state` of `reserve_cost.lua`; none for a malformed balance. -/
def readState (σ : Server CostKey) (p : Period) (window : Window) (nowMs : Nat) : Option Reading :=
  match σ.hash? (balanceKey p) with
  | .error _ => none
  | .ok h =>
    let present := (balanceFields p).countP fun f => (h.lookup f).isSome
    if present = 0 then some ⟨.missing, .zero, window⟩
    else if present ≠ (balanceFields p).length then none
    else
      match h.lookup startsField, h.lookup endsField with
      | none, none => readWindow h p window window.ttl
      | startsAt, endsAt =>
        match parseSafeUnsignedInteger startsAt, parseSafeUnsignedInteger endsAt with
        | some first, some last =>
          if last ≤ first then none
          else if nowMs < first ∨ last ≤ nowMs then some ⟨.stale, .zero, window⟩
          else
            -- recorded bounds decide the window, whatever the calendar says
            (parseSafeUnsignedInteger (h.lookup windowField)).bind fun id =>
              readWindow h p ⟨id, last - nowMs⟩ window.ttl
        | _, _ => none

/-- `failure` of `reserve_cost.lua`. -/
def reserveFailure (detail : Detail) : Reply := ⟨.failed, detail, [0, 0, 0]⟩

/-- A reply that names the windows it was judged by. -/
def reserveReply (verdict : Verdict) (detail : Detail) (retry : Nat) (window : Period → Window) :
    Reply :=
  ⟨verdict, detail, [retry, (window .day).id, (window .month).id]⟩

/-- Read the balance of one period if it has a limit. -/
def readPeriod (σ : Server CostKey) (r : Request) (nowMs : Nat) (seen : Period → Reading)
    (p : Period) : Except Reply (Period → Reading) :=
  match r.limit p with
  | none => .ok seen
  | some _ =>
    match readState σ p (seen p).window nowMs with
    | none => .error (reserveReply .failed (.malformed p) 0 fun q => (seen q).window)
    | some reading => .ok (Function.update seen p reading)

/-- The balances of every period, in the order the script reads them. -/
def readPeriods (σ : Server CostKey) (r : Request) (nowMs : Nat) (window : Period → Window) :
    Except Reply (Period → Reading) :=
  periods.foldlM (readPeriod σ r nowMs) fun p => ⟨.disabled, .zero, window p⟩

/-! ## Budget increases -/

/-- One decoded grant. -/
structure Grant where
  window : Option Text
  windowId : Option ℚ
  amount : Option Text
  startsAt : Option ℚ
  expiresAt : Option ℚ

/-- The period a grant names. -/
def grantPeriod (window : Option Text) : Option Period :=
  if window = some "day".toList then some .day
  else if window = some "week".toList then some .week
  else if window = some "month".toList then some .month
  else none

/-- Add one grant to the limit of its period during its span; none for one that is
malformed. -/
def addGrant (nowMs : Nat) (window : Period → Window) (limit : Period → Option Amount)
    (g : Grant) : Option (Period → Option Amount) :=
  match parseLimit g.amount, g.windowId, g.startsAt, g.expiresAt, grantPeriod g.window with
  | some amount, some id, some startsAt, some expiresAt, some p =>
    if expiresAt ≤ startsAt then none
    else if startsAt ≤ nowMs ∧ nowMs < expiresAt ∧ id = (window p).id then
      some (Function.update limit p ((limit p).map (addAmount · amount)))
    else some limit
  | _, _, _, _, _ => none

/-- The limits with every active grant added. -/
def addGrants (cjson : Text → Option (List Grant)) (nowMs : Nat) (window : Period → Window)
    (increases : Text) (limit : Period → Option Amount) : Option (Period → Option Amount) :=
  if increases = [] then some limit
  else
    match cjson increases with
    | none => none
    | some grants =>
      if 24 < grants.length then none else grants.foldlM (addGrant nowMs window) limit

/-! ## Judging accrued spend -/

/-- The provisional exposure recorded beside the balances. -/
def durableExposure (σ : Server CostKey) : Except Detail Amount :=
  match σ.hash? .durable with
  | .error _ => .error .uninitializedDurable
  | .ok h =>
    match parseSafeUnsignedInteger (h.lookup versionField) with
    | none => .error .uninitializedDurable
    | some _ =>
      match parseAmount (h.lookup amountField) with
      | none => .error .malformedDurable
      | some amount =>
        if h.lookup blockedField = some ['0'] then .ok amount
        else if h.lookup blockedField = some ['1'] then .error .unsettledDurable
        else .error .malformedDurable

/-- A total against a limit: `verify` forgives one that is exactly reached. -/
def exceeds (mode : Mode) (total limit : Amount) : Bool :=
  (if mode = .verify then 0 else -1) < compareAmount total limit

/-- What the request is judged by once its balances are read. -/
structure Assessment where
  nowMs : Nat
  window : Period → Window
  spent : Period → Amount
  limit : Period → Option Amount

/-- The first period whose total exceeds its limit. -/
def firstExceeded (mode : Mode) (limit : Period → Option Amount) (total : Period → Amount) :
    Option Period :=
  periods.find? fun p => (limit p).any (exceeds mode (total p))

/-- The exposure that is added to every window when the owner's sixth key is given. -/
def exposure (σ : Server CostKey) (r : Request) (window : Period → Window) : Except Reply Amount :=
  if r.durable then
    (durableExposure σ).mapError fun detail => reserveReply .failed detail 0 window
  else .ok .zero

/-- The refusals and failures that need no look at pending reservations. -/
def judgeAccrued (r : Request) (seen : Period → Reading) (a : Assessment) :
    Except Reply Assessment :=
  match firstExceeded r.mode a.limit a.spent with
  | some p => .error (reserveReply .refused (.spent p) (a.window p).ttl a.window)
  | none =>
    -- missing state can also mean eviction or data loss
    match periods.find? fun p => (a.limit p).isSome ∧ (seen p).state ≠ .current with
    | some p => .error (reserveReply .failed (.uninitialized p) 0 a.window)
    | none => .ok a

/-- The part of `reserve_cost.lua` that reads and does not write. -/
def assess (cjson : Text → Option (List Grant)) (r : Request) (σ : Server CostKey) :
    Except Reply Assessment := do
  let nowMs ← (currentTime r.override σ.micros).elim
    (.error (reserveFailure .invalidServerTime)) .ok
  let calendar ← (windows nowMs).elim (.error (reserveFailure .invalidServerTime)) .ok
  let seen ← readPeriods σ r nowMs calendar
  let window p := (seen p).window
  let limit ← (addGrants cjson nowMs window r.increases r.limit).elim
    (.error (reserveFailure .invalidArguments)) .ok
  let durable ← exposure σ r window
  let spent p := if r.durable then addAmount (seen p).spent durable else (seen p).spent
  judgeAccrued r seen ⟨nowMs, window, spent, limit⟩

/-! ## Pending reservations -/

/-- `PENDING_RETRY_MS`. -/
def pendingRetryMs : Nat := 1000

/-- `check` and `verify`: availability including pending spend. -/
def checkPending (r : Request) (a : Assessment) : Script CostKey Reply := do
  let held ← pendingTotal a.nowMs true
  match firstExceeded r.mode a.limit fun p => addAmount (a.spent p) held with
  | some p => pure (reserveReply .refused (.spent p) (min (a.window p).ttl pendingRetryMs) a.window)
  | none => pure (reserveReply .ok .ok 0 a.window)

/-- `wait_for`: how long to wait before a window may admit the request, none when it
can.  Waiting helps only when the request alone would fit. -/
def waitFor (limit spent held amount : Amount) (windowTtl : Nat) : Option Nat :=
  if compareAmount (addAmount spent held) limit ≤ 0 then none
  else if compareAmount (addAmount spent amount) limit ≤ 0 then some (min windowTtl pendingRetryMs)
  else some windowTtl

/-- One more window: its wait is reported when it is the first or the longest. -/
def addWait (a : Assessment) (held amount : Amount) (refused : Option (Period × Nat)) (p : Period) :
    Option (Period × Nat) :=
  match (a.limit p).bind fun limit => waitFor limit (a.spent p) held amount (a.window p).ttl with
  | none => refused
  | some wait => if refused.all (·.2 < wait) then some (p, wait) else refused

/-- The longest wait of the refusing windows, with the window that sets it. -/
def longestWait (a : Assessment) (held amount : Amount) : Option (Period × Nat) :=
  periods.foldl (addWait a held amount) none

/-- Whether a priced request fits beside what is held without it; the total with it
when it does. -/
def judgePending (r : Request) (a : Assessment) (pending : Amount) : Except Reply Amount :=
  let held := addAmount pending r.amount
  match longestWait a held r.amount with
  | some (p, wait) => .error (reserveReply .refused (.estimate p) wait a.window)
  | none => .ok held

/-- The pending side of a priced request.  A repeated delivery is granted as it
stands, a larger estimate replaces the lease's amount, and a lapsed lease beyond
the sweep is retired. -/
def admitPriced (r : Request) (a : Assessment) : Script CostKey (Except Reply Amount) := do
  let held ← pendingTotal a.nowMs false
  match ← zscore .expiry r.lease with
  | none => pure (judgePending r a held)
  | some recorded =>
    match parseAmount (← hget .pending r.lease) with
    | none => pure (.error (reserveFailure .invalidPendingAmount))
    | some prior =>
      if a.nowMs < recorded then
        if compareAmount r.amount prior ≤ 0 then
          pure (.error (reserveReply .ok .ok 0 a.window))
        else pure (judgePending r a (subAmount held prior))
      else
        let _ ← releaseLease r.lease
        pure (judgePending r a (subAmount held prior))

/-- Give a balance that never expires the end of its window. -/
def refreshBalance (a : Assessment) (p : Period) : Script CostKey Unit :=
  .write fun σ =>
    if (a.limit p).isSome ∧ σ.pttl (balanceKey p) < 1 then
      σ.pexpire (balanceKey p) (a.window p).ttl
    else σ

/-- Every balance in the script's order. -/
def refreshBalances (a : Assessment) : Script CostKey Unit := do
  refreshBalance a .day
  refreshBalance a .month
  refreshBalance a .week

/-- Record a granted lease. -/
def recordLease (r : Request) (a : Assessment) (held : Amount) : Script CostKey Unit := do
  let expiresMs := Lua.double (a.nowMs + r.leaseTtl)
  storeLease r.lease r.amount held expiresMs false
  outlive expiresMs a.nowMs

/-- A reservation once the balances allow one. -/
def reserve (r : Request) (a : Assessment) : Script CostKey Reply := do
  if r.priced then
    match ← admitPriced r a with
    | .error reply => pure reply
    | .ok held =>
      refreshBalances a
      recordLease r a held
      pure (reserveReply .ok .ok 0 a.window)
  else
    refreshBalances a
    pure (reserveReply .ok .ok 0 a.window)

/-- `reserve_cost.lua`. -/
def reserveCost (cjson : Text → Option (List Grant)) (keys : Nat) (argv : List Text) :
    Script CostKey Reply :=
  match parseReserve keys argv with
  | none => pure (reserveFailure .invalidArguments)
  | some r => do
      match ← .read (assess cjson r) with
      | .error reply => pure reply
      | .ok a => if r.mode = .reserve then reserve r a else checkPending r a

end Olp.Cost
