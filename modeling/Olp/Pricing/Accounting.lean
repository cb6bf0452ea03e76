import Olp.Pricing.Cost
import Olp.Numeric

/-!
# Pricing in the database

`olp.price_usage` prices the usage of an attempt when it is accounted.  It reads the same
price entry and the same usage document as `pricing_cost.go`, with rates and fees as
numerics, divides each side of the token bill by a million, and rounds once at the end.
Where the Go code stops at the first part that cannot be priced, the function goes on and
only remembers that the usage is not complete.

The 64-bit arithmetic of the function raises an error where it overflows; shares of
consistent usage do not, so they are written exactly here.
-/

namespace Olp.Pricing

open Limits

/-! ## Numbers -/

/-- A text as a numeric, with a sign in front or without. -/
def numeric? : Text → Option ℚ
  | '+' :: rest => decimal? rest
  | '-' :: rest => (decimal? rest).map fun x => -x
  | text => decimal? text

def numeric (text : Text) : ℚ := (numeric? text).getD 0

/-! ## The token bill -/

/-- `olp.price_first_rate`: the first rate that a chain carries, as `numeric(24,12)`. -/
def priceFirstRate (rates : RateField → Option Text) (chain : List RateField) : Option Numeric :=
  (chain.findSome? rates).map fun text => .cast (numeric text) costDigits

/-- One share of a side: whether everything so far can be priced, and the charge. -/
def billShare (rates : RateField → Option Text) (bill : Bool × Numeric)
    (share : ℤ × List RateField) : Bool × Numeric :=
  if share.1 < 0 then (false, bill.2)
  else
    match priceFirstRate rates share.2 with
    | none => (bill.1 && !decide (0 < share.1), bill.2)
    | some rate => (bill.1, bill.2.add ((Numeric.ofInt share.1).mul rate))

def billShares (rates : RateField → Option Text) (shares : List (ℤ × List RateField)) :
    Bool × Numeric :=
  shares.foldl (billShare rates) (true, .ofInt 0)

/-- The input side of the bill. -/
def inputBill (rates : RateField → Option Text) (usage : AttemptUsage) : Bool × Numeric :=
  match usage.tokens .input with
  | none => (usage.inputSharesAbsent, .ofInt 0)
  | some _ =>
    let head := (rates .input).isSome || (rates .audioInput).isSome || (rates .imageInput).isSome
    let bill := billShares rates usage.exactInputShares
    (head && bill.1, bill.2)

/-- The output side of the bill. -/
def outputBill (rates : RateField → Option Text) (usage : AttemptUsage) : Bool × Numeric :=
  match usage.tokens .output with
  | none =>
    ((usage.tokens .audioOutput).isNone && (usage.tokens .imageOutput).isNone, .ofInt 0)
  | some _ =>
    let head :=
      (rates .output).isSome || (rates .audioOutput).isSome || (rates .imageOutput).isSome
    let bill := billShares rates usage.exactOutputShares
    (head && bill.1, bill.2)

/-- One more tier for the highest that is exceeded so far. -/
def higherTier (highest : Option PriceTier) (tier : PriceTier) : Option PriceTier :=
  if highest.all fun h => h.aboveInputTokens < tier.aboveInputTokens then some tier else highest

/-- The rates that an attempt prices against: those of the highest tier that the input
exceeds. -/
def selectedRates (price : Price) (input : Option ℤ) : RateField → Option Text :=
  match input with
  | none => price.rates
  | some input =>
    ((price.tiers.filter fun tier => tier.aboveInputTokens < input).foldl higherTier none).elim
      price.rates (·.rates)

/-! ## Fees and multipliers

From here on every sum and product is exact, and only the values of numerics matter. -/

/-- A part of the bill: whether it can be priced, and its charge. -/
abbrev Part := Bool × ℚ

/-- Media units at the price of a unit. -/
def mediaPart (price : Price) (usage : AttemptUsage) : Part :=
  match usage.mediaUnits with
  | none => (true, 0)
  | some media =>
    match price.unitPrice with
    | none => (false, 0)
    | some unit => (true, numeric media * numeric unit)

/-- The fee of a successful attempt. -/
def requestPart (price : Price) (usage : AttemptUsage) (successful : Bool) : ℚ :=
  match price.perRequest with
  | none => 0
  | some fee =>
    if successful = true ∧ 0 < usage.invocations then usage.invocations * numeric fee else 0

def toolPart (price : Price) (bill : Part) (call : Text × ℤ) : Part :=
  if 0 < call.2 then
    match price.toolCalls.lookup call.1 with
    | none => (false, bill.2)
    | some fee => (bill.1, bill.2 + call.2 * numeric fee)
  else bill

/-- An exact retained quantity at its rate. -/
def retainedPart (bill : Part) (quantity : Option ℚ) (rate : Option Text) (divisor : ℕ) : Part :=
  match quantity with
  | none => bill
  | some q =>
    match rate with
    | none => (false, bill.2)
    | some fee =>
      (bill.1, bill.2 + ((Numeric.cast (q * numeric fee) 300).div (.ofInt divisor)).value)

def containerPart (price : Price) (bill : Part) (session : Text × ℤ) : Part :=
  match price.containerPerSession.lookup session.1 with
  | none => (false, bill.2)
  | some fee => (bill.1, bill.2 + session.2 * numeric fee)

/-- `split_part(text, ':', 1) * 60 + split_part(text, ':', 2)`. -/
def clockMinutes (text : Text) : ℕ :=
  Text.value (text.takeWhile (· ≠ ':')) * 60 +
    Text.value (((text.dropWhile (· ≠ ':')).drop 1).takeWhile (· ≠ ':'))

/-- `EXTRACT(ISODOW)`. -/
def isoDow (l : LocalTime) : ℕ := if l.weekday.val = 0 then 7 else l.weekday.val

/-- The multiplier of the period that holds at an instant. -/
def windowPart (zone : Text → Option Location) (price : Price) (startedAt : ℤ) : ℚ :=
  match price.windows with
  | none => 1
  | some windows =>
    match zone windows.timeZone with
    | none => 1
    | some location =>
      let time := location startedAt
      let tod := time.hour * 60 + time.minute
      ((windows.periods.find? fun period =>
        isoDow time ∈ period.days ∧ clockMinutes period.start ≤ tod ∧
          tod < clockMinutes period.stop).map fun period => numeric period.multiplier).getD 1

/-- Batch usage needs a multiplier. -/
def batchPart (price : Price) (usage : AttemptUsage) : Part :=
  if usage.batch then
    match price.batchMultiplier with
    | none => (false, 1)
    | some multiplier => (true, numeric multiplier)
  else (true, 1)

/-! ## The function -/

/-- The charge before multipliers. -/
def chargePart (price : Price) (usage : AttemptUsage) (successful : Bool) : Part :=
  let rates := selectedRates price (usage.tokens .input)
  let input := inputBill rates usage
  let output := outputBill rates usage
  let charge := (input.2.div (.ofInt 1000000)).value + (output.2.div (.ofInt 1000000)).value
  let media := mediaPart price usage
  let bill : Part := (input.1 && output.1 && media.1,
    charge + media.2 + requestPart price usage successful)
  let bill := usage.toolCalls.foldl (toolPart price) bill
  let bill := retainedPart bill (usage.trainingTokens.map Int.cast) price.trainingPerMillion 1000000
  let bill := retainedPart bill (usage.storageByteSeconds.map numeric) price.storagePerGibDay
    (1073741824 * 86400)
  let bill := retainedPart bill (usage.cacheTokenSeconds.map numeric)
    price.cacheStoragePerMillionTokenHour (1000000 * 3600)
  usage.containerSessions.foldl (containerPart price) bill

/-- `olp.price_usage`: the list cost and the cost of usage that is complete. -/
def priceUsage (zone : Text → Option Location) (price : Price) (usage : AttemptUsage)
    (startedAt : ℤ) (successful : Bool) (discount : Option ℚ) : Option (ℚ × ℚ) :=
  -- totals of several invocations cannot choose each one's tier
  if usage.deferred = true ∧ 1 < usage.invocations ∧ price.tiers ≠ [] then none
  else
    let bill := chargePart price usage successful
    let batch := batchPart price usage
    let multiplier := windowPart zone price startedAt * batch.2
    if bill.1 = true ∧ batch.1 = true ∧ usage.complete = true then
      some (Numeric.roundTo (bill.2 * multiplier) 12,
        Numeric.roundTo (bill.2 * multiplier * discount.getD 1) 12)
    else none

end Olp.Pricing
