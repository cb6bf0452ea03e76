import Olp.Pricing.Rates
import Mathlib.Data.Rat.Floor

/-!
# The cost of an attempt

`cost` of `pricing_cost.go` prices one attempt's usage.  Token charges are divided by a
million the way PostgreSQL divides (`quotient`), everything is summed exactly in units of
10⁻¹⁸, the multipliers of the window, of batches and of the discount scale the sum, and it
is rounded half up, once, to twelve places.  Usage with retained quantities is priced by
`retainedCost` in exact rationals.

Everything that bounds a cost rests on two facts: a charge is between the token count times
the lowest and the highest rate of its side (`RateSet.charge_le`, `RateSet.le_charge`), and
`quotient` rounds to a fraction of a unit, so it stays within the units around the charge
(`quotient_le`, `le_quotient`).
-/

namespace Olp.Pricing

open Text List

/-! ## Quotients -/

/-- How many groups of four zeros a text starts with. -/
def zeroGroups : Text → ℕ
  | '0' :: '0' :: '0' :: '0' :: rest => zeroGroups rest + 1
  | _ => 0

/-- The weight and the value of the leading base-10000 digit of `charge * 10 ^ -12`. -/
def leadingGroup (charge : ℕ) : ℤ × ℕ :=
  let digits := ofNat charge
  if costDigits < digits.length then
    -- the integer part, grouped by four from the point
    let integer := digits.length - costDigits
    let weight := (integer - 1) / 4
    (weight, value (digits.take (integer - 4 * weight)))
  else
    let fraction := List.replicate (costDigits - digits.length) '0' ++ digits
    let group := zeroGroups fraction
    (-(group + 1), value ((fraction.drop (group * 4)).take 4))

/-- `quotientScale`: the scale that PostgreSQL gives the quotient by a million. -/
def quotientScale (charge : ℕ) : ℤ :=
  let (weight, leading) := leadingGroup charge
  let quotientWeight := weight - 1
  let quotientWeight := if leading ≤ 100 then quotientWeight - 1 else quotientWeight
  min (max (16 - quotientWeight * 4) costDigits) 1000

/-- `quotient`: a charge in units of 10⁻¹² divided by a million, in units of 10⁻¹⁸. -/
def quotient (charge : ℕ) : ℕ :=
  if charge = 0 then charge
  else
    let scale := (quotientScale charge).toNat
    if quotientDigits ≤ scale then charge
    else
      let unit := 10 ^ (quotientDigits - scale)
      let rounded := charge / unit
      (if unit ≤ charge % unit * 2 then rounded + 1 else rounded) * unit

/-! ## Charges -/

/-- Add one share at the first rate of its chain; none when it is negative or has no rate. -/
def RateSet.addShare (s : RateSet) (charge : ℕ) (share : ℤ × List RateField) : Option ℕ :=
  if share.1 < 0 then none
  else if share.1 = 0 then some charge
  else (s.firstRate share.2).map fun rate => charge + share.1.toNat * rate

/-- `inputCharge` and `outputCharge`: one side of the bill before it is divided. -/
def RateSet.charge (s : RateSet) (shares : List (ℤ × List RateField)) : Option ℕ :=
  shares.foldlM s.addShare 0

/-- The input side of the bill. -/
def RateSet.inputTotal (s : RateSet) (u : AttemptUsage) : Option ℕ :=
  match u.tokens .input with
  | none => if u.inputSharesAbsent then some 0 else none
  | some _ => if s.inputHead then (s.charge u.inputShares).map quotient else none

/-- The output side of the bill. -/
def RateSet.outputTotal (s : RateSet) (u : AttemptUsage) : Option ℕ :=
  match u.tokens .output with
  | none =>
    if (u.tokens .audioOutput).isNone ∧ (u.tokens .imageOutput).isNone then some 0 else none
  | some _ => if s.outputHead then (s.charge u.outputShares).map quotient else none

def PriceRates.mediaTotal (r : PriceRates) (u : AttemptUsage) : Option ℕ :=
  match u.mediaUnits with
  | none => some 0
  | some text => do
      let unit ← r.unit
      let units ← scaledDecimal text mediaDigits
      pure (units * unit)

/-- The fee of a successful attempt. -/
def PriceRates.requestFee (r : PriceRates) (u : AttemptUsage) (successful : Bool) : ℕ :=
  if successful = true ∧ 0 < u.invocations then
    r.perRequest.getD 0 * perMillion * u.invocations.toNat
  else 0

def PriceRates.addTool (r : PriceRates) (total : ℕ) (call : Text × ℤ) : Option ℕ :=
  if call.2 ≤ 0 then some total
  else (r.tools call.1).map fun fee => total + call.2.toNat * fee * perMillion

/-! ## Retained quantities -/

/-- `retainedQuantityPattern` and the length it is held to. -/
def validQuantity (quantity : Option Text) : Bool :=
  quantity.all fun q => q.length ≤ 128 ∧ (Limits.plainDecimal q).isSome

/-- `validateRetainedUsage`. -/
def AttemptUsage.validRetained (u : AttemptUsage) : Bool :=
  u.invocationCount.all (0 ≤ ·) && u.trainingTokens.all (0 ≤ ·) &&
    validQuantity u.storageByteSeconds && validQuantity u.cacheTokenSeconds &&
    u.containerSessions.length ≤ 16 &&
    u.containerSessions.all fun (tier, count) => validContainerTier tier && 0 ≤ count

/-- Add a quantity at a rate; a quantity that is there needs one. -/
def addRetained (total : ℚ) (quantity : Option ℚ) (rate : Option Text) (divisor : ℕ) : Option ℚ :=
  match quantity with
  | none => some total
  | some q => do
      let rate ← rate
      let v ← Limits.decimal? (trimPlus rate)
      pure (total + q * v / divisor)

def ratio (m : Option ℕ) : ℚ := m.elim 1 fun m => m / costUnit

/-- `retainedCost`. -/
def PriceRates.retainedCost (r : PriceRates) (base : ℕ) (u : AttemptUsage) (at_ : ℤ)
    (discount : Option ℕ) : Option Cost := do
  guard u.validRetained
  let p := r.retained
  let total : ℚ := base / 10 ^ 18
  let total ← addRetained total (u.trainingTokens.map Int.cast) p.trainingPerMillion 1000000
  let total ← addRetained total (u.storageByteSeconds.bind Limits.decimal?) p.storagePerGibDay
    (2 ^ 30 * 86400)
  let total ← addRetained total (u.cacheTokenSeconds.bind Limits.decimal?)
    p.cacheStoragePerMillionTokenHour (1000000 * 3600)
  let total ← u.containerSessions.foldlM (fun total (tier, count) => do
    let rate ← p.containerPerSession.lookup tier
    addRetained total (some count) (some rate) 1) total
  guard (u.batch = false ∨ r.batch.isSome)
  let total := total * ratio (r.windowAt at_) * ratio (if u.batch then r.batch else none) *
    ratio discount
  pure (clampCost ⌊total * costUnit + 1 / 2⌋.toNat)

/-! ## Costs -/

/-- Multiply a total by a multiplier that may be absent, and note its scale. -/
def scaleBy (total : ℕ × ℕ) : Option ℕ → ℕ × ℕ
  | none => total
  | some m => (total.1 * m, total.2 + costDigits)

/-- The end of `cost`: the multipliers and the one rounding. -/
def PriceRates.finish (r : PriceRates) (total : ℕ) (u : AttemptUsage) (at_ : ℤ)
    (discount : Option ℕ) : Option Cost :=
  let window := r.windowAt at_
  if u.batch = true ∧ r.batch = none then none
  else if window = none ∧ u.batch = false ∧ discount = none then
    some (clampCost ((total + 500000) / perMillion))
  else
    let (total, divisorDigits) :=
      scaleBy (scaleBy (scaleBy (total, 6) window) (if u.batch then r.batch else none)) discount
    some (clampCost ((total + 10 ^ divisorDigits / 2) / 10 ^ divisorDigits))

/-- `cost`; none when the usage cannot be priced. -/
def PriceRates.cost (r : PriceRates) (u : AttemptUsage) (startedAt : ℤ) (successful : Bool)
    (discount : Option ℕ) : Option Cost := do
  guard u.complete
  -- totals of several invocations do not reveal the input that chooses each one's tier
  guard ¬ (u.deferred = true ∧ u.invocationCount.any (1 < ·) = true ∧ r.tiers ≠ [])
  let rates := r.selectRates (u.tokens .input)
  let input ← rates.inputTotal u
  let output ← rates.outputTotal u
  let media ← r.mediaTotal u
  guard (0 ≤ u.invocations)
  let fee := r.requestFee u successful
  let total ← u.toolCalls.foldlM r.addTool (input + output + media + fee)
  if u.retainedValues then r.retainedCost total u startedAt discount
  else r.finish total u startedAt discount

/-- `Price.Cost` under a discount; none for a price that does not parse. -/
def Price.cost (loadLocation : Text → Option Location) (p : Price) (u : AttemptUsage)
    (startedAt : ℤ) (successful : Bool) (discount : Option ℕ) : Option Cost :=
  (parseRates loadLocation p).bind fun r => r.cost u startedAt successful discount

/-! ## One rounding -/

/-- The multipliers that scale a charge. -/
def PriceRates.multipliers (r : PriceRates) (u : AttemptUsage) (at_ : ℤ) (discount : Option ℕ) :
    List ℕ :=
  (r.windowAt at_).toList ++ (if u.batch then r.batch else none).toList ++ discount.toList

theorem scaleBy_eq (total : ℕ × ℕ) (m : Option ℕ) :
    scaleBy total m = (total.1 * m.toList.prod, total.2 + costDigits * m.toList.length) := by
  cases m <;> simp [scaleBy]

theorem ten_pow_divisor (k : ℕ) : 10 ^ (6 + costDigits * k) = perMillion * costUnit ^ k := by
  rw [pow_add, costUnit, ← pow_mul]
  rfl

variable {u : AttemptUsage}

variable {discount : Option ℕ}

theorem PriceRates.finish_eq_some {r : PriceRates} {total : ℕ} {at_ : ℤ} {c : Cost}
    (h : r.finish total u at_ discount = some c) :
    c = clampCost (Rounding.halfUp (total * (r.multipliers u at_ discount).prod)
      (perMillion * costUnit ^ (r.multipliers u at_ discount).length)) := by
  unfold PriceRates.finish at h
  dsimp only at h
  split at h
  · simp at h
  · split at h
    · rename_i hnone
      cases h
      simp [PriceRates.multipliers, hnone, Rounding.halfUp, perMillion]
    · cases h
      simp only [scaleBy_eq, PriceRates.multipliers, Rounding.halfUp, prod_append,
        length_append, add_assoc, ← Nat.mul_add, mul_assoc, ten_pow_divisor]

/-- Usage of tokens alone. -/
structure AttemptUsage.TokenOnly (u : AttemptUsage) : Prop where
  media : u.mediaUnits = none
  tools : u.toolCalls = []
  batch : u.batch = false
  retained : u.retainedValues = false

theorem PriceRates.cost_eq_some {r : PriceRates} {at_ : ℤ} {successful : Bool} {c : Cost}
    (h : r.cost u at_ successful discount = some c) (hu : u.TokenOnly) :
    ∃ input output, (r.selectRates (u.tokens .input)).inputTotal u = some input ∧
      (r.selectRates (u.tokens .input)).outputTotal u = some output ∧
      c = clampCost (Rounding.halfUp ((input + output + r.requestFee u successful)
          * ((r.windowAt at_).toList ++ discount.toList).prod)
        (perMillion * costUnit ^ ((r.windowAt at_).toList ++ discount.toList).length)) := by
  simp only [PriceRates.cost, PriceRates.mediaTotal, hu.media, hu.tools, hu.retained,
    Option.bind_eq_bind, Option.bind_eq_some_iff, foldlM_nil, Option.pure_def,
    Option.some.injEq, exists_eq_left', Bool.false_eq_true, if_false] at h
  obtain ⟨-, -, -, -, input, hinput, output, houtput, -, -, hfinish⟩ := h
  refine ⟨input, output, hinput, houtput, ?_⟩
  have := PriceRates.finish_eq_some hfinish
  simpa [PriceRates.multipliers, hu.batch] using this

/-! ## Quotients stay within units -/

theorem costDigits_le_quotientScale (charge : ℕ) : (costDigits : ℤ) ≤ quotientScale charge :=
  le_min (le_max_right _ _) (by decide)

theorem quotient_unit_dvd (charge : ℕ) :
    10 ^ (quotientDigits - (quotientScale charge).toNat) ∣ perMillion := by
  have h := costDigits_le_quotientScale charge
  have hle : quotientDigits - (quotientScale charge).toNat ≤ 6 := by
    unfold quotientDigits costDigits at *
    omega
  exact pow_dvd_pow 10 hle

/-- A quotient is exact, or rounded to a unit of which `perMillion` is a multiple. -/
theorem quotient_cases (charge : ℕ) : quotient charge = charge ∨ ∃ unit k, 0 < unit ∧
    perMillion = unit * k ∧ quotient charge =
      (if unit ≤ charge % unit * 2 then charge / unit + 1 else charge / unit) * unit := by
  unfold quotient
  split
  · exact .inl rfl
  · dsimp only
    split
    · exact .inl rfl
    · obtain ⟨k, hk⟩ := quotient_unit_dvd charge
      exact .inr ⟨_, k, by positivity, hk, rfl⟩

variable {charge : ℕ} {shares : List (ℤ × List RateField)}

theorem quotient_le {b : ℕ} (h : charge ≤ b * perMillion) : quotient charge ≤ b * perMillion := by
  rcases quotient_cases charge with hq | ⟨unit, k, hpos, hk, hq⟩
  · rwa [hq]
  · rw [hk, mul_left_comm, mul_comm unit] at h ⊢
    rw [hq]
    refine Nat.mul_le_mul_right _ ?_
    have hdiv := Nat.div_add_mod charge unit
    split
    · -- a remainder that is rounded up leaves room below the bound
      refine Nat.lt_of_mul_lt_mul_left (a := unit) ?_
      rw [mul_comm unit (b * k)]
      omega
    · exact Nat.div_le_of_le_mul (by rwa [mul_comm])

theorem le_quotient {b : ℕ} (h : b * perMillion ≤ charge) : b * perMillion ≤ quotient charge := by
  rcases quotient_cases charge with hq | ⟨unit, k, hpos, hk, hq⟩
  · rwa [hq]
  · rw [hk, mul_left_comm, mul_comm unit] at h ⊢
    rw [hq]
    refine Nat.mul_le_mul_right _ ?_
    have hle : b * k ≤ charge / unit := (Nat.le_div_iff_mul_le hpos).2 h
    split
    · exact hle.trans (Nat.le_succ _)
    · exact hle

/-! ## Charges lie between the rates -/

variable {s : RateSet}

theorem RateSet.firstRate_eq_some {chain : List RateField} {rate : ℕ}
    (h : s.firstRate chain = some rate) : ∃ f ∈ chain, s f = some rate :=
  exists_of_findSome?_eq_some h

theorem RateSet.addShare_eq_some {charge' : ℕ} {share : ℤ × List RateField}
    (h : s.addShare charge share = some charge') :
    0 ≤ share.1 ∧ (share.1 = 0 ∧ charge' = charge ∨
      ∃ rate, s.firstRate share.2 = some rate ∧ charge' = charge + share.1.toNat * rate) := by
  revert h
  fun_cases RateSet.addShare <;> simp_all

theorem RateSet.charge_bounds {m M : ℕ}
    (hrates : ∀ share ∈ shares, ∀ rate, s.firstRate share.2 = some rate → m ≤ rate ∧ rate ≤ M)
    {c₀ c : ℕ} (h : shares.foldlM s.addShare c₀ = some c) :
    c₀ + (shares.map Prod.fst).sum * m ≤ (c : ℤ) ∧
      (c : ℤ) ≤ c₀ + (shares.map Prod.fst).sum * M := by
  induction shares generalizing c₀ with
  | nil =>
    obtain rfl : c₀ = c := by simpa using h
    simp
  | cons share shares ih =>
    obtain ⟨c₁, hstep, hrest⟩ := Option.bind_eq_some_iff.1 h
    obtain ⟨hlow, hhigh⟩ := ih (fun sh hsh => hrates sh (mem_cons_of_mem _ hsh)) hrest
    obtain ⟨hpos, hshare⟩ := RateSet.addShare_eq_some hstep
    rw [map_cons, sum_cons, add_mul, add_mul]
    have hone : c₀ + share.1 * m ≤ (c₁ : ℤ) ∧ (c₁ : ℤ) ≤ c₀ + share.1 * M := by
      rcases hshare with ⟨hzero, rfl⟩ | ⟨rate, hrate, rfl⟩
      · simp [hzero]
      · obtain ⟨hm, hM⟩ := hrates share mem_cons_self rate hrate
        have htokens : (share.1.toNat : ℤ) = share.1 := Int.toNat_of_nonneg hpos
        push_cast
        rw [htokens]
        exact ⟨by gcongr, by gcongr⟩
    constructor
    · linarith [hone.1]
    · linarith [hone.2]

/-! ## Consistent usage -/

/-- Counters that are absent or of the 64-bit range, none of whose shares is negative. -/
structure AttemptUsage.Consistent (u : AttemptUsage) : Prop where
  tokens : ∀ c n, u.tokens c = some n → n < 2 ^ 63
  input : ∀ share ∈ u.exactInputShares, 0 ≤ share.1
  output : ∀ share ∈ u.exactOutputShares, 0 ≤ share.1

theorem AttemptUsage.sum_exactInputShares (u : AttemptUsage) :
    (u.exactInputShares.map Prod.fst).sum = u.count .input := by
  simp only [AttemptUsage.exactInputShares, map_cons, map_nil, sum_cons, sum_nil]
  ring

theorem AttemptUsage.sum_exactOutputShares (u : AttemptUsage) :
    (u.exactOutputShares.map Prod.fst).sum = u.count .output := by
  simp only [AttemptUsage.exactOutputShares, map_cons, map_nil, sum_cons, sum_nil]
  ring

theorem wrapShares_eq (h : ∀ share ∈ shares, 0 ≤ share.1)
    (hsum : (shares.map Prod.fst).sum < 2 ^ 63) : wrapShares shares = shares := by
  have hnonneg : ∀ x ∈ shares.map Prod.fst, 0 ≤ x := by
    intro x hx
    obtain ⟨share, hshare, rfl⟩ := mem_map.1 hx
    exact h share hshare
  refine (map_congr_left fun share hshare => ?_).trans (map_id shares)
  have hle := single_le_sum hnonneg share.1 (mem_map_of_mem hshare)
  rw [wrap64_eq (by have := h share hshare; omega) (lt_of_le_of_lt hle hsum)]
  rfl

theorem AttemptUsage.Consistent.count_lt (hu : u.Consistent) (c : Counter) :
    u.count c < 2 ^ 63 := by
  unfold AttemptUsage.count
  cases h : u.tokens c with
  | none => decide
  | some n => exact hu.tokens c n h

/-- Consistent usage never clamps a share of the input. -/
theorem AttemptUsage.Consistent.inputShares_eq (hu : u.Consistent) :
    u.inputShares = u.exactInputShares :=
  wrapShares_eq hu.input (u.sum_exactInputShares ▸ hu.count_lt _)

/-- Consistent usage never clamps a share of the output. -/
theorem AttemptUsage.Consistent.outputShares_eq (hu : u.Consistent) :
    u.outputShares = u.exactOutputShares :=
  wrapShares_eq hu.output (u.sum_exactOutputShares ▸ hu.count_lt _)

end Olp.Pricing
