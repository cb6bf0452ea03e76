import Olp.Cost.Pending

/-!
# `settle_cost.lua`

Settle one request's pending reservation: replace its amount with what the request
cost, or drop it when that is nothing.  A lease that is not there is left alone and
never recreated, and a settlement can shorten a lease but not extend it.
-/

namespace Olp.Cost

open Limits Valkey

/-- The arguments of `settle_cost.lua`. -/
structure Settlement where
  lease : Text
  amount : Amount
  ttl : Nat

def Settlement.release (s : Settlement) : Bool := s.amount.hi = 0 ∧ s.amount.lo = 0

/-- The checks on the arguments; none for `invalid_arguments`. -/
def parseSettlement (keys : Nat) (argv : List Text) : Option Settlement :=
  if keys ≠ 2 ∨ argv.length ≠ 3 then none
  else
    match parseAmount (some (arg argv 2)), number argv 3 with
    | some amount, some ttl =>
      let s : Settlement := ⟨arg argv 1, amount, ttl⟩
      if validLease s.lease = false ∨ (s.release = false ∧ ttl < 1) then none else some s
    | _, _ => none

/-- `failure` of `settle_cost.lua`. -/
def settleFailure (detail : Detail) : Reply := ⟨.failed, detail, [0, 0]⟩

/-- What `settle_cost.lua` does at an instant with arguments that passed. -/
def settle (nowMs : Nat) (s : Settlement) : Script CostKey Reply := do
  let sum ← pendingTotal nowMs false
  match ← hget .pending s.lease with
  | none => pure ⟨.ok, .ok, [0, 0]⟩
  | some held =>
    let expiry ← zscore .expiry s.lease
    -- a lapsed lease no longer counts and must not be revived
    if expiry.any (· ≤ nowMs) then
      removeLease s.lease (some held) sum
      pure ⟨.ok, .ok, [0, 0]⟩
    else if s.release then
      removeLease s.lease (some held) sum
      pure ⟨.ok, .ok, [1, 0]⟩
    else
      let sum := (parseAmount (some held)).elim sum (subAmount sum)
      let sum := addAmount sum s.amount
      storeLease s.lease s.amount sum (Lua.double (nowMs + s.ttl)) true
      pure ⟨.ok, .ok, [1, 0]⟩

/-- `settle_cost.lua`. -/
def settleCost (keys : Nat) (argv : List Text) : Script CostKey Reply :=
  match parseSettlement keys argv with
  | none => pure (settleFailure .invalidArguments)
  | some s => do
      match ← .read fun σ => currentTime 0 σ.micros with
      | none => pure (settleFailure .invalidServerTime)
      | some nowMs => settle nowMs s

end Olp.Cost
