import Olp.Limits.Amount
import Olp.Limits.Calendar
import Olp.Lua
import Olp.Valkey.Server

/-!
# Pending reservations

The block `cost_pending`, which `reserve_cost.lua`, `settle_cost.lua` and
`reconcile_cost.lua` hold byte for byte.  The pending reservations of a cost owner
live in two keys: a hash with one field per lease holding its amount and a field
`sum` holding the total, and a sorted set from leases to the millisecond they
expire at.

Each helper of the block is a script over the six keys of one owner.  What the
source reads before it decides anything, and the branches in which it takes the
two keys for damaged, are `inspect`.
-/

namespace Olp.Cost

open Limits Valkey

/-- The keys of one cost owner, in the order the scripts receive them. -/
inductive CostKey
  | day
  | month
  | pending
  | expiry
  | week
  | durable
deriving DecidableEq, Repr

/-- The key of a window's balance. -/
def balanceKey : Period → CostKey
  | .day => .day
  | .month => .month
  | .week => .week

def sumField : Text := "sum".toList

/-! The fields of a balance and of the durable exposure. -/

def windowField : Text := "window".toList

def accruedField : Text := "accrued".toList

def unpricedField : Text := "unpriced".toList

def startsField : Text := "starts_at".toList

def endsField : Text := "ends_at".toList

def versionField : Text := "version".toList

def amountField : Text := "amount".toList

def blockedField : Text := "blocked".toList

/-- `SWEEP_LIMIT`: how many lapsed leases one call retires. -/
def sweepLimit : Nat := 256

/-- `valid_lease`. -/
def validLease (lease : Text) : Bool :=
  32 ≤ lease.length ∧ lease.length ≤ 64 ∧
    lease.all fun c => c.isDigit = true ∨ ('a' ≤ c ∧ c ≤ 'f') ∨ c = '-'

theorem ne_sumField_of_validLease {lease : Text} (h : validLease lease = true) :
    lease ≠ sumField := by
  rintro rfl
  revert h
  decide

/-- `drop_pending`. -/
def dropPending : Script CostKey Unit := .write fun σ => (σ.del .pending).del .expiry

/-- What the two keys look like to a call. -/
inductive Books
  | damaged
  | empty
  | held (sum : Amount)
deriving DecidableEq, Repr

/-- The reads and checks that `pending_total` starts with. -/
def inspect (σ : Server CostKey) : Books :=
  match σ.hash? .pending, σ.zset? .expiry with
  | .ok h, .ok z =>
    match h.lookup sumField with
    -- nothing is held, or a hash has lost its total
    | none => if 0 < z.card ∨ (σ.store .pending).isSome then .damaged else .empty
    | some stored =>
      match parseAmount (some stored) with
      | none => .damaged
      | some sum =>
        if z.card < 1 ∨ h.keys.card ≠ z.card + 1 then .damaged else .held sum
  | _, _ => .damaged

/-- The total less the amounts of retired leases; what is no amount takes nothing off. -/
def retire (sum : Amount) (amounts : List (Option Text)) : Amount :=
  amounts.foldl (fun sum raw => (parseAmount raw).elim sum (subAmount sum)) sum

/-- The end of a sweep: the total of the leases that are left, if any are. -/
def closeSweep (sum : Amount) : Script CostKey Amount := do
  let fields ← hlen .pending
  if fields ≤ 1 then
    dropPending
    pure .zero
  else
    hset .pending [(sumField, formatAmount sum)]
    pure sum

/-- `pending_total`. -/
def pendingTotal (nowMs : Nat) (readOnly : Bool) : Script CostKey Amount := do
  match ← .read inspect with
  | .damaged =>
    if readOnly then pure .zero
    else
      dropPending
      pure .zero
  | .empty => pure .zero
  | .held sum =>
    let expired ← .query fun σ => (σ.zset? .expiry).map (·.rangeByScore nowMs sweepLimit)
    if expired = [] then pure sum
    else
      let amounts ← hmget .pending expired
      let sum := retire sum amounts
      if readOnly then pure sum
      else
        hdel .pending expired
        zrem .expiry expired
        closeSweep sum

/-- `store_lease`. -/
def storeLease (lease : Text) (amount total : Amount) (expiresMs : Nat) (lowerOnly : Bool) :
    Script CostKey Unit := do
  hset .pending [(lease, formatAmount amount), (sumField, formatAmount total)]
  if lowerOnly then zaddLt .expiry expiresMs lease else zadd .expiry expiresMs lease

/-- `outlive`.  A time to live is a Lua number by the time it is compared; one that
the key does not have is negative and never the larger of the two. -/
def outlive (expiresMs nowMs : Nat) : Script CostKey Unit := do
  let pttl ← .read fun σ => σ.pttl .pending
  let ttl := max (Lua.double pttl.toNat) (Lua.double (Lua.double (expiresMs - nowMs) + 1000))
  .write fun σ => σ.pexpire .pending ttl
  .write fun σ => σ.pexpire .expiry ttl

/-- `remove_lease`. -/
def removeLease (lease : Text) (amount : Option Text) (sum : Amount) : Script CostKey Unit := do
  let fields ← hlen .pending
  -- this lease and the total are all that is held
  if fields ≤ 2 then dropPending
  else
    let sum := (parseAmount amount).elim sum (subAmount sum)
    hdel .pending [lease]
    match ← (zrem .expiry [lease]).pcall with
    | .error _ => dropPending
    | .ok _ => hset .pending [(sumField, formatAmount sum)]

/-- `release_lease`. -/
def releaseLease (lease : Text) : Script CostKey Nat := do
  match ← (hmget .pending [lease, sumField]).pcall with
  | .error _ =>
    dropPending
    pure 0
  | .ok [some amount, stored] =>
    removeLease lease (some amount) ((parseAmount stored).getD .zero)
    pure 1
  | .ok _ => pure 0

/-! ## Replies and arguments -/

/-- How a script answers: `1`, `0` and `-1`. -/
inductive Verdict
  | ok
  | refused
  | failed
deriving DecidableEq, Repr

/-- The `detail` of a reply. -/
inductive Detail
  | ok
  | invalidArguments
  | invalidServerTime
  | invalidPendingAmount
  | malformed (p : Period)
  | uninitialized (p : Period)
  | spent (p : Period)
  | estimate (p : Period)
  | uninitializedDurable
  | malformedDurable
  | unsettledDurable
deriving DecidableEq, Repr

/-- The word for a window in the replies. -/
def periodly : Period → String
  | .day => "daily"
  | .month => "monthly"
  | .week => "weekly"

/-- The text of a detail. -/
def Detail.text : Detail → String
  | .ok => "ok"
  | .invalidArguments => "invalid_arguments"
  | .invalidServerTime => "invalid_server_time"
  | .invalidPendingAmount => "invalid_pending_amount"
  | .malformed p => "malformed_" ++ periodly p ++ "_cost_state"
  | .uninitialized p => "uninitialized_" ++ periodly p ++ "_cost_state"
  | .spent p => periodly p ++ "_cost"
  | .estimate p => periodly p ++ "_cost" ++ "_estimate"
  | .uninitializedDurable => "uninitialized_durable_cost_state"
  | .malformedDurable => "malformed_durable_cost_state"
  | .unsettledDurable => "unsettled_durable_cost_state"

/-- A reply, without its constant version. -/
structure Reply where
  verdict : Verdict
  detail : Detail
  results : List Nat
deriving DecidableEq, Repr

/-- `ARGV[i]`, empty when there is none: no check tells the two apart. -/
def arg (argv : List Text) (i : Nat) : Text := argv.getD (i - 1) []

/-- `parse_safe_unsigned_integer(ARGV[i])`. -/
def number (argv : List Text) (i : Nat) : Option Nat :=
  parseSafeUnsignedInteger (some (arg argv i))

end Olp.Cost
