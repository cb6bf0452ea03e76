import Mathlib.Data.Finset.Sort
import Olp.Locking
import Olp.Table
import Olp.Budget.Civil

/-!
# Token windows of code attempts

The model of `limits/code_tokens.go` and of the statements around it that read or write the same
rows: admission inserts an attempt and reserves its token bound in the windows of every budget
that covers it (`codesessions/store.go`, `paid.go`), an attempt is marked as dispatched before it
is handed to the provider, it is settled or aborted, and budgets are configured.

Each of them is a transaction.  A query that locks rows is a `lock`, an `UPDATE` with a condition
locks the row and then checks it, and a query that locks nothing is a `look`.  The reservations of
an attempt are kept in its row: they are inserted in the transaction that inserts the attempt,
under keys that start with its id, and never change after it.  Identifiers are numbers, instants
are microseconds since the epoch.
-/

namespace Olp.CodeTokens

open Olp.Locking

abbrev Id := ℕ

inductive Period where
  | day
  | month
deriving DecidableEq, Repr

/-- `date_trunc(period, now() AT TIME ZONE 'UTC') AT TIME ZONE 'UTC'`. -/
def Period.start (p : Period) (now : ℤ) : ℤ :=
  let date := now / 86400000000
  86400000000 * Budget.dateTrunc (match p with | .day => .day | .month => .month) date

inductive State where
  | prepared
  | uncertain
  | settled
  | aborted
  | boundViolation
deriving DecidableEq, Repr

/-- Neither settled nor aborted. -/
def State.isOpen : State → Bool
  | .prepared | .uncertain => true
  | _ => false

/-- `1<<53 - 1`. -/
def maxTokens : ℤ := 2 ^ 53 - 1

def maxBigint : ℕ := 2 ^ 63 - 1

/-! ## Rows -/

structure Budget where
  enabled : Bool
  project : Id
  route : Option Id
  key : Option Id
  daily : Option ℕ
  monthly : Option ℕ
deriving DecidableEq, Repr

def Budget.maximum (b : Budget) : Period → Option ℕ
  | .day => b.daily
  | .month => b.monthly

structure Window where
  reserved : ℕ := 0
  measured : ℕ := 0
deriving DecidableEq, Repr

structure Reservation where
  budget : Id
  period : Period
  start : ℤ
  tokens : ℕ
deriving DecidableEq, Repr

structure Attempt where
  project : Id
  route : Id
  key : Id
  state : State
  reservedTokens : ℕ
  reported : Option ℤ := none
  input : Option ℤ := none
  output : Option ℤ := none
  cached : Option ℤ := none
  reasoning : Option ℤ := none
  createdAt : ℤ
  finishedAt : Option ℤ := none
  reservations : List Reservation := []
deriving DecidableEq, Repr

inductive Key where
  | budget (id : Id)
  | window (budget : Id) (period : Period) (start : ℤ)
  | attempt (id : Id)
deriving DecidableEq, Repr

abbrev Row : Key → Type
  | .budget _ => Budget
  | .window _ _ _ => Window
  | .attempt _ => Attempt

abbrev Store := Finmap Row

namespace Store

def budget (t : Store) (id : Id) : Option Budget := t.lookup (.budget id)

def window (t : Store) (b : Id) (p : Period) (start : ℤ) : Option Window :=
  t.lookup (.window b p start)

def attempt (t : Store) (id : Id) : Option Attempt := t.lookup (.attempt id)

end Store

/-- The errors that roll a transaction back. -/
inductive Refusal where
  | invalidUsage
  | inconsistentUsage
  | inconsistentCached
  | inconsistentReasoning
  | noRows
  | settlementConflict
  | dispatchUncertain
  | reservationMissing
  | tokenBoundUnavailable
  | budgetExhausted
  | alreadyDispatched
  | outOfRange
  | duplicateKey
deriving DecidableEq, Repr

/-- Which branch of a transaction committed. -/
inductive Outcome where
  | admitted
  | dispatched
  | unchanged
  | uncertain
  | settled
  | aborted
  | configured
deriving DecidableEq, Repr

abbrev Tx (α : Type) := Prog Row Refusal α

def lockBudget (id : Id) : Tx (Option Budget) := Prog.lockRow (Key.budget id)

def lockWindow (b : Id) (p : Period) (start : ℤ) : Tx (Option Window) :=
  Prog.lockRow (Key.window b p start)

def lockAttempt (id : Id) : Tx (Option Attempt) := Prog.lockRow (Key.attempt id)

def writeBudget (id : Id) (b : Budget) : Tx Unit := Prog.writeRow (.budget id) b

def writeWindow (b : Id) (p : Period) (start : ℤ) (w : Window) : Tx Unit :=
  Prog.writeRow (.window b p start) w

def writeAttempt (id : Id) (a : Attempt) : Tx Unit := Prog.writeRow (.attempt id) a

/-! ## Bounds and usage -/

structure TokenBound where
  tokens : ℤ
  evidence : Text
deriving DecidableEq, Repr

/-- `TokenBound.Validate`. -/
def TokenBound.valid : Option TokenBound → Bool
  | none => false
  | some b => 1 ≤ b.tokens && b.tokens ≤ maxTokens && b.evidence ≠ [] && b.evidence.length ≤ 256

def TokenBound.count (b : Option TokenBound) : ℕ := (b.map TokenBound.tokens).getD 0 |>.toNat

structure Usage where
  total : Option ℤ := none
  input : Option ℤ := none
  output : Option ℤ := none
  cached : Option ℤ := none
  reasoning : Option ℤ := none
deriving DecidableEq, Repr

/-- Both numbers are known and are in a relation. -/
def bothKnown (a b : Option ℤ) (r : ℤ → ℤ → Bool) : Bool :=
  match a, b with
  | some a, some b => r a b
  | _, _ => false

/-- `Usage.Validate`. -/
def Usage.validate (u : Usage) : Option Refusal :=
  if ∃ n ∈ [u.total, u.input, u.output, u.cached, u.reasoning].reduceOption,
      n < 0 ∨ maxTokens < n then some .invalidUsage
  else if u.total.any fun t => bothKnown u.input u.output fun i o => i + o ≠ t then
    some .inconsistentUsage
  else if bothKnown u.cached u.input fun c i => i < c then some .inconsistentCached
  else if bothKnown u.reasoning u.output fun r o => o < r then some .inconsistentReasoning
  else none

/-! ## Reservation -/

structure Admission where
  id : Id
  project : Id
  route : Id
  key : Id
  bound : Option TokenBound
  paid : Bool
  now : ℤ
deriving DecidableEq, Repr

/-- `enabled AND project_id=$1 AND (route_id IS NULL OR …) AND (api_key_id IS NULL OR …)`. -/
def Admission.covered (m : Admission) (b : Budget) : Bool :=
  b.enabled && b.project = m.project && b.route.all (· = m.route) && b.key.all (· = m.key)

/-- The ids of the budgets that a query finds, in order. -/
def Admission.candidates (m : Admission) (t : Store) : List Id :=
  (t.keys.biUnion fun
    | .budget id => if (Store.budget t id).any m.covered then {id} else ∅
    | _ => ∅).sort (· ≤ ·)

/-- `FOR UPDATE`: each row that was found is locked, and kept if it still meets the condition. -/
def Admission.lockBudgets (m : Admission) : List Id → Tx (List (Id × Budget))
  | [] => pure []
  | id :: ids => do
      let row ← lockBudget id
      let rest ← m.lockBudgets ids
      match row with
      | some b => if m.covered b then return (id, b) :: rest else return rest
      | none => return rest

/-- A window that an attempt is to be charged to. -/
structure Charge where
  budget : Id
  scope : Budget
  period : Period
  maximum : ℕ

/-- The windows of the budgets: for each the day and then the month, if they have a maximum. -/
def charges (budgets : List (Id × Budget)) : List Charge :=
  budgets.flatMap fun (id, b) =>
    [Period.day, Period.month].filterMap fun p => (b.maximum p).map fun m => ⟨id, b, p, m⟩

/-- The attempts, other than its own, that the query for what is available sums over. -/
def Admission.counted (m : Admission) (c : Charge) (t : Store) : Finset Id :=
  t.keys.biUnion fun
    | .attempt id =>
      if (Store.attempt t id).any fun a =>
          a.project = m.project && c.scope.route.all (· = a.route) &&
            c.scope.key.all (· = a.key) && c.period.start m.now ≤ a.createdAt && id ≠ m.id
      then {id} else ∅
    | _ => ∅

/-- `CASE WHEN state IN ('prepared','uncertain') THEN reserved_tokens ELSE
COALESCE(reported_tokens,0) END`. -/
def Attempt.spent (a : Attempt) : ℤ :=
  if a.state.isOpen then a.reservedTokens else a.reported.getD 0

/-- The query for what is available in a window. -/
def Admission.available (m : Admission) (c : Charge) (tokens : ℕ) (t : Store) : Bool :=
  let rows := m.counted c t
  let row := Store.attempt t
  (∑ id ∈ rows, ((row id).map Attempt.spent).getD 0) ≤ (c.maximum : ℤ) - tokens &&
    !decide (∃ id ∈ rows, (row id).any fun a => a.state.isOpen && a.reservedTokens = 0) &&
    !decide (∃ id ∈ rows, (row id).any fun a => a.state = .boundViolation)

/-- The reservation of a bound in one window after the other, for the attempt whose row is given. -/
def Admission.reserveAll (m : Admission) (tokens : ℕ) : List Charge → Attempt → Tx Unit
  | [], _ => pure ()
  | c :: cs, a => do
      let start := c.period.start m.now
      let t ← Prog.look
      Prog.require (m.available c tokens t) .budgetExhausted
      let _ ← Prog.insertRow (.window c.budget c.period start) ({} : Window)
      match ← lockWindow c.budget c.period start with
      | none => .fail .budgetExhausted
      | some w => do
          Prog.require (w.measured + w.reserved + tokens ≤ c.maximum) .budgetExhausted
          writeWindow c.budget c.period start { w with reserved := w.reserved + tokens }
          let a := { a with
            reservations := a.reservations ++ [⟨c.budget, c.period, start, tokens⟩] }
          writeAttempt m.id a
          m.reserveAll tokens cs a

/-- `ReserveCodeTokens`. -/
def Admission.reserve (m : Admission) (a : Attempt) : Tx Unit := do
  let t ← Prog.look
  let budgets ← m.lockBudgets (m.candidates t)
  if budgets = [] then return ()
  else do
    Prog.require (TokenBound.valid m.bound) .tokenBoundUnavailable
    m.reserveAll (TokenBound.count m.bound) (charges budgets) a

/-- The row that an admission inserts.  Only the subscription path records the bound in it. -/
def Admission.row (m : Admission) : Attempt where
  project := m.project
  route := m.route
  key := m.key
  state := .prepared
  reservedTokens := if m.paid then 0 else TokenBound.count m.bound
  createdAt := m.now

/-- The end of an admission: the attempt is inserted, and its bound reserved. -/
def Admission.admission (m : Admission) : Tx Outcome := do
  Prog.require (m.paid ∨ m.bound = none ∨ TokenBound.valid m.bound) .tokenBoundUnavailable
  let new ← Prog.insertRow (.attempt m.id) m.row
  Prog.require (new = true) .duplicateKey
  m.reserve m.row
  return .admitted

/-! ## Dispatch and settlement -/

/-- `MarkDispatched`. -/
def markDispatched (id : Id) : Tx Outcome := do
  match ← lockAttempt id with
  | none => .fail .alreadyDispatched
  | some a => do
      Prog.require (a.state = .prepared) .alreadyDispatched
      writeAttempt id { a with state := .uncertain }
      return .dispatched

/-- The reserved tokens of each window become measured ones. -/
def settleAll (actual : ℕ) : List Reservation → Tx Unit
  | [] => pure ()
  | r :: rs => do
      match ← lockWindow r.budget r.period r.start with
      | none => .fail .reservationMissing
      | some w => do
          Prog.require (r.tokens ≤ w.reserved) .reservationMissing
          Prog.require (w.measured + actual ≤ maxBigint) .outOfRange
          writeWindow r.budget r.period r.start ⟨w.reserved - r.tokens, w.measured + actual⟩
          settleAll actual rs

/-- A settlement of an attempt that is closed: it may only say again what was said. -/
def Attempt.repeats (a : Attempt) (u : Usage) (abort : Bool) : Bool :=
  abort && a.state = .aborted || !abort && u.total = none ||
    a.reported.isSome && u.total.isSome && a.reported = u.total

/-- The state of an attempt that is closed with a total. -/
def Attempt.closed (a : Attempt) (actual : ℕ) (abort : Bool) : State :=
  if abort then .aborted
  else if 0 < a.reservedTokens ∧ a.reservedTokens < actual then .boundViolation
  else .settled

/-- `SettleCodeTokens`. -/
def settle (now : ℤ) (id : Id) (u : Usage) (abort : Bool) : Tx Outcome := do
  match u.validate with
  | some e => .fail e
  | none => do
      match ← lockAttempt id with
      | none => .fail .noRows
      | some a =>
        if ¬a.state.isOpen then do
          Prog.require (a.repeats u abort) .settlementConflict
          return .unchanged
        else do
          Prog.require (¬(abort ∧ a.state ≠ .prepared)) .dispatchUncertain
          if u.total = none ∧ ¬abort then do
            writeAttempt id { a with
              state := .uncertain
              input := u.input.or a.input
              output := u.output.or a.output
              cached := u.cached.or a.cached
              reasoning := u.reasoning.or a.reasoning
              finishedAt := some now }
            return .uncertain
          else do
            let actual := (u.total.getD 0).toNat
            settleAll actual a.reservations
            writeAttempt id { a with
              state := a.closed actual abort
              reported := u.total
              input := u.input
              output := u.output
              cached := u.cached
              reasoning := u.reasoning
              finishedAt := some now }
            return if abort then .aborted else .settled

/-- `SaveCodeBudget`: the scope of a budget never changes. -/
def saveBudget (id : Id) (b : Budget) : Tx Outcome := do
  if ← Prog.insertRow (.budget id) b then return .configured
  else match ← lockBudget id with
    | none => .fail .duplicateKey
    | some old => do
        writeBudget id { old with enabled := b.enabled, daily := b.daily, monthly := b.monthly }
        return .configured

/-! ## The system -/

inductive Call where
  | admission (m : Admission)
  | dispatch (id : Id)
  | settle (now : ℤ) (id : Id) (u : Usage) (abort : Bool)
  | configure (id : Id) (b : Budget)
deriving DecidableEq, Repr

def Call.body : Call → Tx Outcome
  | .admission m => m.admission
  | .dispatch id => markDispatched id
  | .settle now id u abort => CodeTokens.settle now id u abort
  | .configure id b => saveBudget id b

end Olp.CodeTokens
