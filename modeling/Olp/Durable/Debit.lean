import Olp.Checked
import Olp.Limits.Integer
import Olp.Table
import Mathlib.Data.List.Sort

/-!
# The ledger of durable debits

The tables of `0081_durable_debits.sql`, with the key of results that `0107_agent_route_runs.sql`
puts in place of the first one, and the transactions over them in `debit_records.go`,
`debit_tool_settle.go` and `debit_resolution.go`.  A debit is the
provisional exposure of one execution: it is prepared with a bound for every owner it
concerns, admitted, dispatched, and closed by its results, by proof that nothing was
accepted, or undispatched.

Amounts count units of `10 ^ -12`, as `numeric(28,12)` does; identifiers and digests are
only ever compared; instants count microseconds.  A transaction that fails leaves the
ledger as it was.  What a transaction asks of other tables and services (the live key, the
limiter, the persisted usage) comes as an argument.
-/

namespace Olp.Durable

abbrev Id := Nat

/-- The first amount that `numeric(28,12)` does not hold. -/
def numericLimit : Nat := 10 ^ 28

/-- `Basis`. -/
inductive Basis
  | cost
  | charge
deriving DecidableEq, Repr

/-- The kinds of accounting owners. -/
inductive OwnerKind
  | key
  | group
  | aggregate
  | endUser
  | supply
deriving DecidableEq, Repr

/-- The kinds of executions. -/
inductive DebitKind
  | api
  | model
  | tool
  | agent
deriving DecidableEq, Repr

/-- `DebitState`. -/
inductive DebitState
  | prepared
  | ready
  | dispatched
  | outcomeUnknown
  | settled
  | released
  | notAccepted
  | conflict
deriving DecidableEq, Repr

def DebitState.inFlight (s : DebitState) : Bool := s = .dispatched ∨ s = .outcomeUnknown

def DebitState.undispatched (s : DebitState) : Bool := s = .prepared ∨ s = .ready

/-- The errors of a transaction; `storage` is any error of the database. -/
inductive DebitError
  | conflict
  | state
  | authority
  | refused
  | storage
deriving DecidableEq, Repr

/-! ## Rows -/

/-- `DebitIntent`, without the claim, which is a fence and no part of its identity. -/
structure DebitIntent where
  id : Id
  apiKeyId : Id
  projectId : Option Id
  runStep : Option (Id × Id)
  kind : DebitKind
  affinity : Id
  currency : Id
  costBound : Nat
  chargeBound : Nat
  preparedUntil : Nat
deriving DecidableEq, Repr

/-- `DebitOwner`. -/
structure DebitOwner where
  id : Id
  kind : OwnerKind
  basis : Basis
deriving DecidableEq, Repr

/-- A row of `execution_debit_owners`. -/
structure OwnerRow where
  owner : DebitOwner
  bound : Nat
deriving DecidableEq, Repr

/-- `DebitResult`. -/
structure DebitResult where
  dispatchId : Id
  digest : Id
  evidence : Id
  eventId : Id
  cost : Nat
  charge : Nat
  final : Bool
  complete : Bool
  resolves : List Id
deriving DecidableEq, Repr

/-- The columns of `execution_debits` that change. -/
structure Row where
  observedCost : Nat
  observedCharge : Nat
  state : DebitState
  boundViolation : Bool
  dispatchedAt : Option Nat
  closedAt : Option Nat
deriving DecidableEq, Repr

/-- The checks of the table on a row. -/
def Row.valid (r : Row) : Bool :=
  (r.closedAt.isSome ↔ r.state = .settled ∨ r.state = .released ∨ r.state = .notAccepted) ∧
    (r.state = .dispatched ∨ r.state = .outcomeUnknown ∨ r.state = .settled ∨
      r.state = .notAccepted ∨ r.state = .conflict → r.dispatchedAt.isSome) ∧
    r.observedCost < numericLimit ∧ r.observedCharge < numericLimit

/-- A debit with its owners, its results, which receipts later results resolved, and the
evidence of an audited resolution. -/
structure Debit where
  intent : DebitIntent
  claimId : Id
  owners : List OwnerRow
  row : Row
  checked : row.valid = true
  results : List DebitResult
  resolutions : List (Id × Id)
  audit : Option (Id × Id)
deriving DecidableEq, Repr

abbrev Version := { n : Nat // n ≤ Limits.maxSafeInteger }

/-- The debits under their identifiers, and the version of every owner, zero without a
row. -/
structure Ledger where
  debits : Table Id Debit
  versions : Id → Version
  keyed : ∀ {id d}, debits.lookup id = some d → d.intent.id = id

def Ledger.empty : Ledger := ⟨∅, fun _ => ⟨0, by decide⟩, by simp⟩

/-- `guard_execution_debit`, which fires on every update. -/
def guardUpdate (old new : Row) : Bool :=
  (old.closedAt.isSome → new = old) ∧
    (old.dispatchedAt.isSome → new.dispatchedAt = old.dispatchedAt ∧
      new.state ≠ .prepared ∧ new.state ≠ .ready ∧ new.state ≠ .released)

/-- Update a row, past the guard and the checks. -/
def Debit.update (d : Debit) (new : Row) : Except DebitError Debit := do
  require (guardUpdate d.row new) .storage
  if h : new.valid = true then pure { d with row := new, checked := h } else throw .storage

/-- Write a debit. -/
def Ledger.put (l : Ledger) (d : Debit) : Ledger where
  debits := l.debits.insert d.intent.id d
  versions := l.versions
  keyed {id d'} h := by
    by_cases hid : id = d.intent.id
    · rw [Table.lookup_insert_eq, if_pos hid] at h
      rw [← Option.some.inj h, hid]
    · rw [Table.lookup_insert_eq, if_neg hid] at h
      exact l.keyed h

/-- `bumpDebitOwners`: owners come sorted, and one that repeats is bumped once. -/
def bumpDebitOwners : List Id → Option Id → (Id → Version) → Except DebitError (Id → Version)
  | [], _, versions => .ok versions
  | o :: os, last, versions =>
    if last = some o then bumpDebitOwners os last versions
    else if h : (versions o).1 + 1 ≤ Limits.maxSafeInteger then
      bumpDebitOwners os (some o) (Function.update versions o ⟨(versions o).1 + 1, h⟩)
    else .error .storage

/-- Bump the owners of a list of debits. -/
def Ledger.bump (l : Ledger) (owners : List Id) : Except DebitError Ledger :=
  (bumpDebitOwners owners none l.versions).map fun versions => { l with versions := versions }

/-- The identifiers of a debit's owners, in the order they are read. -/
def Debit.ownerIds (d : Debit) : List Id := d.owners.map fun o => o.owner.id

/-! ## Preparing -/

/-- `validate`: what the types of the fields leave to check. -/
def DebitIntent.validate (i : DebitIntent) : Bool :=
  (i.kind = .tool ∨ i.kind = .agent → i.projectId.isSome) ∧
    i.costBound < numericLimit ∧ i.chargeBound < numericLimit

/-- `normalizedDebitOwners`: every owner under both bases; none for `ErrDebitConflict`. -/
def normalizedDebitOwners (owners : List DebitOwner) : Option (List DebitOwner) :=
  if owners = [] ∨ 128 < owners.length then none
  else if owners.Pairwise fun a b => a.id = b.id → a.kind = b.kind ∧ a.basis ≠ b.basis then
    some <| ((owners.map (·.id)).dedup.insertionSort (· ≤ ·)).flatMap fun id =>
      (owners.find? (·.id = id)).toList.flatMap fun o =>
        [⟨id, o.kind, .charge⟩, ⟨id, o.kind, .cost⟩]
  else none

/-- The bound of an owner on its basis. -/
def DebitIntent.bound (i : DebitIntent) : Basis → Nat
  | .cost => i.costBound
  | .charge => i.chargeBound

/-- A debit as it is inserted. -/
def DebitIntent.debit (i : DebitIntent) (claim : Id) (owners : List DebitOwner) : Debit where
  intent := i
  claimId := claim
  owners := owners.map fun o => ⟨o, i.bound o.basis⟩
  row := ⟨0, 0, .prepared, false, none, none⟩
  checked := by decide
  results := []
  resolutions := []
  audit := none

/-- `PrepareTx`.  A replay finds the existing intent; two minutes is the longest an intent
may wait for its dispatch. -/
def prepareTx (l : Ledger) (now : Nat) (authorized : Bool) (i : DebitIntent) (claim : Id)
    (owners : List DebitOwner) : Except DebitError (DebitState × Ledger) := do
  require i.validate .conflict
  match normalizedDebitOwners owners with
  | none => throw .conflict
  | some owners =>
    require (owners.any fun o => o.kind = .key ∧ o.id = i.apiKeyId) .conflict
    require (now < i.preparedUntil ∧ i.preparedUntil ≤ now + 120000000) .conflict
    require authorized .authority
    match l.debits.lookup i.id with
    | some d =>
      require (d.intent = i ∧ d.owners.map (·.owner) = owners) .conflict
      pure (d.row.state, l)
    | none =>
      let d := i.debit claim owners
      let l ← (l.put d).bump d.ownerIds
      pure (.prepared, l)

/-! ## Before the outcome -/

/-- The debit a process holds the claim of. -/
def Ledger.claimed (l : Ledger) (id claim : Id) : Except DebitError Debit := do
  match l.debits.lookup id with
  | none => throw .state
  | some d =>
    require (d.claimId = claim) .state
    pure d

/-- `Admit`.  The requests cover every recorded owner, each under one of its bases;
`verified` is what the limiter says of their budgets. -/
def admitDebit (l : Ledger) (now : Nat) (id claim : Id) (requests : List (Id × Basis))
    (verified : Bool) : Except DebitError Ledger := do
  let d ← l.claimed id claim
  require (now < d.intent.preparedUntil) .state
  require (d.row.state = .prepared) .state
  require (requests.length * 2 = d.owners.length) .conflict
  require ((requests.map (·.1)).Nodup ∧ requests.all fun r =>
    d.owners.any fun o => o.owner.id = r.1 ∧ o.owner.basis = r.2) .conflict
  require verified .refused
  let d ← d.update { d.row with state := .ready }
  pure (l.put d)

/-- `MarkDispatchedTx`. -/
def markDispatchedTx (l : Ledger) (now : Nat) (id claim : Id) (authorized : Bool) :
    Except DebitError Ledger := do
  let d ← l.claimed id claim
  require (d.row.state = .ready ∧ now < d.intent.preparedUntil ∧ authorized) .state
  let d ← d.update { d.row with state := .dispatched, dispatchedAt := some now }
  pure (l.put d)

/-- `MarkUnknown`. -/
def markUnknown (l : Ledger) (id claim : Id) : Except DebitError Ledger := do
  let d ← l.claimed id claim
  require d.row.state.inFlight .state
  let d ← d.update { d.row with state := .outcomeUnknown }
  pure (l.put d)

/-- Close a debit and bump its owners. -/
def Ledger.close (l : Ledger) (now : Nat) (d : Debit) (state : DebitState) :
    Except DebitError Ledger := do
  let d ← d.update { d.row with state := state, closedAt := some now }
  (l.put d).bump d.ownerIds

/-- `ReleaseUndispatched`. -/
def releaseUndispatched (l : Ledger) (now : Nat) (id claim : Id) : Except DebitError Ledger := do
  let d ← l.claimed id claim
  if d.row.state = .released then pure l
  else
    require d.row.state.undispatched .state
    l.close now d .released

/-- The rows that a recovery may take. -/
def Debit.abandoned (d : Debit) (now : Nat) : Bool :=
  d.row.state.undispatched ∧ d.intent.preparedUntil < now

/-- One row of a recovery. -/
def releaseOne (now : Nat) (l : Ledger) (d : Debit) : Except DebitError Ledger := do
  let d ← d.update { d.row with state := .released, closedAt := some now }
  pure (l.put d)

/-- `RecoverPrepared`.  Rows that others have locked are skipped, so that any of the
abandoned debits may be the ones it takes. -/
def recoverPrepared (l : Ledger) (now limit : Nat) (ids : List Id) :
    Except DebitError (Nat × Ledger) := do
  require (1 ≤ limit ∧ limit ≤ 256) .storage
  let ds := ids.filterMap l.debits.lookup
  require (ids.Nodup ∧ ids.length ≤ limit ∧ ds.length = ids.length ∧
    ds.all (·.abandoned now)) .storage
  let l ← ds.foldlM (releaseOne now) l
  let l ← l.bump ((ds.flatMap (·.ownerIds)).insertionSort (· ≤ ·))
  pure (ids.length, l)

/-! ## Results -/

/-- `debitResolutionDigest`: the order does not matter, a repetition is refused. -/
def resolutionDigest (values : List Id) : Option (List Id) :=
  if 128 < values.length ∨ ¬ values.Nodup then none else some (values.insertionSort (· ≤ ·))

/-- `debitResultMatches`. -/
def DebitResult.matches (r stored : DebitResult) : Bool :=
  stored.evidence = r.evidence ∧ resolutionDigest stored.resolves = resolutionDigest r.resolves ∧
    stored.eventId = r.eventId ∧ stored.cost = r.cost ∧ stored.charge = r.charge ∧
    stored.final = r.final ∧ stored.complete = r.complete

/-- `DebitResultReplayTx`: whether the result is recorded already. -/
def debitResultReplay (d : Debit) (r : DebitResult) : Except DebitError Bool := do
  require (r.cost < numericLimit ∧ r.charge < numericLimit) .conflict
  require ((resolutionDigest r.resolves).isSome ∧ (r.complete = false → r.resolves = [])) .conflict
  match d.results.find? (·.digest = r.digest) with
  | none => pure false
  | some stored =>
    require (r.matches stored) .conflict
    pure true

/-- `beginDebitSettleTx`. -/
def beginDebitSettle (l : Ledger) (r : DebitResult) : Except DebitError (Debit × Bool) := do
  match l.debits.lookup r.dispatchId with
  | none => throw .storage
  | some d =>
    let duplicate ← debitResultReplay d r
    pure (d, duplicate)

/-- `appendDebitResultTx`.  An event may be recorded with several debits, with each of them once. -/
def appendDebitResult (d : Debit) (r : DebitResult) : Except DebitError Debit := do
  require (∀ x ∈ d.results, x.eventId ≠ r.eventId) .storage
  pure { d with results := d.results ++ [r] }

/-- `debitOwnersAccounted`: supply budgets measure cost under either basis. -/
def debitOwnersAccounted (owners : List OwnerRow) (accounting : List (Id × Basis)) : Bool :=
  owners.all fun o =>
    accounting.any fun a => a.1 = o.owner.id ∧
      a.2 = if o.owner.kind = .supply then .cost else o.owner.basis

/-- Link an incomplete receipt to the result that resolves it. -/
def resolveReceipt (evidence : Id) (d : Debit) (resolved : Id) : Except DebitError Debit := do
  require (resolved ≠ evidence ∧ d.results.any (fun r => r.digest = resolved ∧ r.complete = false) ∧
    d.resolutions.all fun x => x.1 ≠ resolved) .conflict
  pure { d with resolutions := d.resolutions ++ [(resolved, evidence)] }

/-- A receipt is incomplete and nothing has resolved it. -/
def Debit.unresolved (d : Debit) : Bool :=
  d.results.any fun r => r.complete = false ∧ d.resolutions.all fun x => x.1 ≠ r.digest

/-- The row once a result is added to it. -/
def settleRow (now : Nat) (d : Debit) (r : DebitResult) : Row :=
  let cost := d.row.observedCost + r.cost
  let charge := d.row.observedCharge + r.charge
  let closes := r.final ∧ r.complete ∧ d.unresolved = false
  { d.row with
    observedCost := cost
    observedCharge := charge
    boundViolation :=
      d.row.boundViolation ∨ d.intent.costBound < cost ∨ d.intent.chargeBound < charge
    state := if closes then .settled
      else if r.complete = false ∨ d.unresolved then .outcomeUnknown else d.row.state
    closedAt := if closes then some now else none }

/-- `SettleDebitTx`; `persisted` is whether the usage of the event is persisted and agrees
with the result. -/
def settleDebitTx (l : Ledger) (now : Nat) (r : DebitResult) (persisted : Bool)
    (accounting : List (Id × Basis)) : Except DebitError Ledger := do
  let (d, duplicate) ← beginDebitSettle l r
  if duplicate then pure l
  else
    require d.row.state.inFlight .state
    require persisted .state
    require (debitOwnersAccounted d.owners accounting) .state
    let d ← appendDebitResult d r
    let d ← r.resolves.foldlM (resolveReceipt r.digest) d
    let d ← d.update (settleRow now d r)
    (l.put d).bump d.ownerIds

/-- `settlePricedDebitTx`, for tools and agents; `persisted` is whether their spend could
be added to the windows of the owners. -/
def settlePricedDebitTx (l : Ledger) (now : Nat) (r : DebitResult) (kind : DebitKind)
    (persisted : Bool) : Except DebitError Ledger := do
  require (r.final ∧ r.complete ∧ r.resolves = []) .conflict
  let (d, duplicate) ← beginDebitSettle l r
  if duplicate then pure l
  else
    require (d.intent.kind = kind ∧ d.row.state.inFlight) .state
    require (d.row.observedCost + r.cost ≤ d.intent.costBound ∧
      d.row.observedCharge + r.charge ≤ d.intent.chargeBound) .conflict
    let d ← appendDebitResult d r
    require persisted .storage
    let d ← d.update { d.row with
      observedCost := d.row.observedCost + r.cost
      observedCharge := d.row.observedCharge + r.charge
      state := .settled
      closedAt := some now }
    (l.put d).bump d.ownerIds

/-! ## Nothing accepted -/

/-- Nothing was observed, and no result is priced or complete. -/
def Debit.clean (d : Debit) : Bool :=
  d.row.observedCost = 0 ∧ d.row.observedCharge = 0 ∧
    d.results.all fun r => r.cost = 0 ∧ r.charge = 0 ∧ r.complete = false

/-- `MarkNotSent`; `leased` is whether the claim has a workflow lease. -/
def markNotSent (l : Ledger) (now : Nat) (id claim : Id) (leased : Bool) :
    Except DebitError Ledger := do
  let d ← l.claimed id claim
  if d.row.state = .notAccepted then pure l
  else
    require d.row.state.inFlight .state
    require (d.row.state = .outcomeUnknown →
      leased ∧ d.intent.kind = .model ∧ d.intent.runStep.isSome ∧ d.clean) .state
    l.close now d .notAccepted

/-- `ResolveNotAcceptedTx`. -/
def resolveNotAcceptedTx (l : Ledger) (now : Nat) (id actor evidence : Id) :
    Except DebitError Ledger := do
  match l.debits.lookup id with
  | none => throw .storage
  | some d =>
    match d.audit with
    | some audit =>
      require (audit = (actor, evidence)) .conflict
      pure l
    | none =>
      require d.row.state.inFlight .state
      require d.clean .state
      l.close now { d with audit := some (actor, evidence) } .notAccepted

/-! ## Transactions -/

/-- A whole transaction, with the instant it runs at and what it learns elsewhere. -/
inductive Tx
  | prepare (now : Nat) (authorized : Bool) (i : DebitIntent) (claim : Id)
      (owners : List DebitOwner)
  | admitDebit (now : Nat) (id claim : Id) (requests : List (Id × Basis)) (verified : Bool)
  | markDispatched (now : Nat) (id claim : Id) (authorized : Bool)
  | markUnknown (id claim : Id)
  | settle (now : Nat) (r : DebitResult) (persisted : Bool) (accounting : List (Id × Basis))
  | settlePriced (now : Nat) (r : DebitResult) (kind : DebitKind) (persisted : Bool)
  | markNotSent (now : Nat) (id claim : Id) (leased : Bool)
  | resolveNotAccepted (now : Nat) (id actor evidence : Id)
  | releaseUndispatched (now : Nat) (id claim : Id)
  | recoverPrepared (now limit : Nat) (ids : List Id)

/-- What a transaction leaves when it commits. -/
def Tx.exec (t : Tx) (l : Ledger) : Except DebitError Ledger :=
  match t with
  | .prepare now authorized i claim owners => (prepareTx l now authorized i claim owners).map (·.2)
  | .admitDebit now id claim requests verified =>
      Durable.admitDebit l now id claim requests verified
  | .markDispatched now id claim authorized => markDispatchedTx l now id claim authorized
  | .markUnknown id claim => Durable.markUnknown l id claim
  | .settle now r persisted accounting => settleDebitTx l now r persisted accounting
  | .settlePriced now r kind persisted => settlePricedDebitTx l now r kind persisted
  | .markNotSent now id claim leased => Durable.markNotSent l now id claim leased
  | .resolveNotAccepted now id actor evidence => resolveNotAcceptedTx l now id actor evidence
  | .releaseUndispatched now id claim => Durable.releaseUndispatched l now id claim
  | .recoverPrepared now limit ids => (Durable.recoverPrepared l now limit ids).map (·.2)

/-- A transaction commits, or is rolled back. -/
def Ledger.step (l : Ledger) (t : Tx) : Ledger :=
  match t.exec l with
  | .ok l' => l'
  | .error _ => l

end Olp.Durable
