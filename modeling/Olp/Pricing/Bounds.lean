import Olp.Pricing.Cost

/-!
# Bounds of a cost

What admission knows of a request before it runs is how many tokens it sends and how many
it may get back.  `CostBound` is the most that can cost at an instant, `CostFloor` the
least, and `WorkflowModelCostBound` the most of a workflow step that runs later, in whatever
window and with whatever smaller input.

The enclosures hold for the amounts as the code rounds them: a bound rounds up after every
multiplication, a floor rounds down, and a cost is rounded once (`Rounding`).
-/

namespace Olp.Pricing

open Rounding List Option

/-! ## Definitions -/

/-- One more rate for the highest so far. -/
def higher (highest rate : Option ℕ) : Option ℕ :=
  match rate with
  | none => highest
  | some r => if highest.all (· < r) then some r else highest

/-- One more rate for the lowest so far. -/
def lower (lowest rate : Option ℕ) : Option ℕ :=
  match rate with
  | none => lowest
  | some r => if lowest.all (r < ·) then some r else lowest

def maxRate (rates : List (Option ℕ)) : Option ℕ := rates.foldl higher none

def minRate (rates : List (Option ℕ)) : Option ℕ := rates.foldl lower none

/-- The rates an input share may bill at. -/
def inputFields : List RateField :=
  [.input, .cached, .cacheWrite, .cacheWrite5m, .cacheWrite1h, .audioInput, .cachedAudioInput,
    .imageInput, .cachedImageInput]

def outputFields : List RateField := [.output, .audioOutput, .imageOutput]

/-- `tokens * rate` by a million, rounded up to a whole unit. -/
def ceilPerMillion (tokens rate : ℕ) : ℕ := up (tokens * rate) perMillion

/-- Apply a multiplier that may be absent and round up. -/
def raiseBy (bound : ℕ) : Option ℕ → ℕ
  | none => bound
  | some m => up (bound * m) costUnit

/-- Apply a multiplier that may be absent and round down. -/
def lowerBy (floor : ℕ) : Option ℕ → ℕ
  | none => floor
  | some m => floor * m / costUnit

/-- The bound before its multipliers: the input at the highest input rate, for a generation
the output at the highest output rate, and the fee of a request. -/
def PriceRates.tokenBound (r : PriceRates) (rates : RateSet) (input output : ℤ)
    (generation : Bool) : ℕ :=
  ceilPerMillion (max input 0).toNat ((maxRate (inputFields.map rates)).getD 0) +
    (if generation then
      ceilPerMillion (max output 0).toNat ((maxRate (outputFields.map rates)).getD 0)
    else 0) + r.perRequest.getD 0

/-- `costBound`. -/
def PriceRates.costBound (r : PriceRates) (input output : ℤ) (generation : Bool)
    (discount window : Option ℕ) : Option Cost :=
  let rates := r.selectRates (some input)
  if rates.inputHead = false ∨ (generation = true ∧ rates.outputHead = false) then none
  else
    some (clampCost (raiseBy (raiseBy (r.tokenBound rates input output generation) window)
      discount))

/-- `maximumWindow`: the highest multiplier of a window, if it is above one. -/
def PriceRates.maximumWindow (r : PriceRates) : Option ℕ :=
  match (r.windows.map (·.multiplier)).max? with
  | none => none
  | some window => if window ≤ costUnit then none else some window

/-- `CostFloor`. -/
def PriceRates.costFloor (r : PriceRates) (input : ℤ) (at_ : ℤ) (discount : Option ℕ) :
    Option Cost :=
  let rates := r.selectRates (some input)
  if rates.inputHead = false then none
  else
    let rate := (minRate (inputFields.map rates)).getD 0
    let floor := (max input 0).toNat * rate / perMillion + r.perRequest.getD 0
    some (clampCost (lowerBy (lowerBy floor (r.windowAt at_)) discount))

/-- `workflowModelCostThroughTiers`. -/
def PriceRates.workflowModelCostThroughTiers (r : PriceRates) (discount : Option ℕ)
    (input output : ℤ) : List PriceTier → Option Cost
  | [] => r.costBound input output true discount r.maximumWindow
  | tier :: tiers => do
      let bound ← r.workflowModelCostThroughTiers discount input output tiers
      if input ≤ tier.aboveInputTokens then pure bound
      else
        let prior ← r.costBound tier.aboveInputTokens output true discount r.maximumWindow
        if bound.value < prior.value then pure prior else pure bound

/-- `ParseCost` of a fee that is nothing. -/
def freeTool (fee : Text) : Bool := scaledDecimal fee costDigits = some 0

section RoutingPrice

variable (loadLocation : Text → Option Location)

/-- `CostBound`. -/
def Price.costBound (p : Price) (input output : ℤ) (generation : Bool) (at_ : ℤ)
    (discount : Option ℕ) : Option Cost :=
  (parseRates loadLocation p).bind fun r =>
    r.costBound input output generation discount (r.windowAt at_)

def Price.costFloor (p : Price) (input : ℤ) (at_ : ℤ) (discount : Option ℕ) : Option Cost :=
  (parseRates loadLocation p).bind fun r => r.costFloor input at_ discount

/-- `WorkflowModelCostBound`; none for a price with a fee for a tool. -/
def Price.workflowModelCostBound (p : Price) (input output : ℤ) (discount : Option ℕ) :
    Option Cost :=
  if input < 1 ∨ output < 1 ∨ (p.toolCalls.all fun call => freeTool call.2) = false then none
  else
    (parseRates loadLocation p).bind fun r =>
      r.workflowModelCostThroughTiers discount input output p.tiers

end RoutingPrice

/-! ## Highest and lowest rates -/

/-- Folding an operation whose result is related to both its arguments: the last result is related
to the first and to every rate. -/
theorem foldl_extreme {R : ℕ → ℕ → Prop} [IsTrans ℕ R] [Std.Refl R]
    {op : Option ℕ → Option ℕ → Option ℕ}
    (hop : ∀ a b x, a = some x ∨ b = some x → ∃ y, op a b = some y ∧ R x y)
    (rates : List (Option ℕ)) (best : Option ℕ) :
    ∀ x, best = some x ∨ some x ∈ rates → R x ((rates.foldl op best).getD 0) := by
  induction rates generalizing best with
  | nil =>
    rintro x (rfl | h)
    · exact refl_of R x
    · cases h
  | cons rate rates ih =>
    intro x hx
    have hstep : best = some x ∨ rate = some x → R x ((rates.foldl op (op best rate)).getD 0) := by
      intro h
      obtain ⟨y, hy, hxy⟩ := hop best rate x h
      exact trans_of R hxy (ih _ y (.inl hy))
    rcases hx with hx | hx
    · exact hstep (.inl hx)
    · rcases mem_cons.1 hx with hx | hx
      · exact hstep (.inr hx.symm)
      · exact ih _ x (.inr hx)

theorem le_higher (a b : Option ℕ) (x : ℕ) (h : a = some x ∨ b = some x) :
    ∃ y, higher a b = some y ∧ x ≤ y := by
  cases a <;> cases b <;> simp_all [higher]
  split <;> simp <;> omega

theorem lower_le (a b : Option ℕ) (x : ℕ) (h : a = some x ∨ b = some x) :
    ∃ y, lower a b = some y ∧ x ≥ y := by
  cases a <;> cases b <;> simp_all [lower]
  split <;> simp <;> omega

variable {s : RateSet} {u : AttemptUsage} {fields : List RateField}

theorem RateSet.firstRate_between {chain : List RateField} (hsub : chain ⊆ fields) {rate : ℕ}
    (h : s.firstRate chain = some rate) :
    (minRate (fields.map s)).getD 0 ≤ rate ∧ rate ≤ (maxRate (fields.map s)).getD 0 := by
  obtain ⟨f, hf, hrate⟩ := RateSet.firstRate_eq_some h
  have hmem : some rate ∈ fields.map s := mem_map.2 ⟨f, hsub hf, hrate⟩
  exact ⟨foldl_extreme lower_le _ none rate (.inr hmem),
    foldl_extreme le_higher _ none rate (.inr hmem)⟩

theorem AttemptUsage.inputChains (u : AttemptUsage) :
    ∀ share ∈ u.exactInputShares, share.2 ⊆ inputFields := by
  simp only [AttemptUsage.exactInputShares, forall_mem_cons]
  decide

theorem AttemptUsage.outputChains (u : AttemptUsage) :
    ∀ share ∈ u.exactOutputShares, share.2 ⊆ outputFields := by
  simp only [AttemptUsage.exactOutputShares, forall_mem_cons]
  decide

/-! ## The two sides of a bill -/

theorem le_ceilPerMillion_mul (tokens rate : ℕ) :
    tokens * rate ≤ ceilPerMillion tokens rate * perMillion := by
  exact le_up_mul _ (by decide)

variable {n : ℤ}

variable {shares : List (ℤ × List RateField)} {input : ℤ} {loadLocation : Text → Option Location}

theorem quotient_charge_le (hsub : ∀ share ∈ shares, share.2 ⊆ fields) {c : ℕ}
    (h : s.charge shares = some c) (hn : (shares.map Prod.fst).sum ≤ max n 0) :
    quotient c ≤ ceilPerMillion (max n 0).toNat ((maxRate (fields.map s)).getD 0) * perMillion := by
  obtain ⟨-, hc⟩ := RateSet.charge_bounds
    (fun share hshare rate hrate => RateSet.firstRate_between (hsub share hshare) hrate) h
  refine quotient_le (le_trans ?_ (le_ceilPerMillion_mul _ _))
  have hmax : ((max n 0).toNat : ℤ) = max n 0 := Int.toNat_of_nonneg (le_max_right _ _)
  have hle : (c : ℤ) ≤ ((max n 0).toNat * (maxRate (fields.map s)).getD 0 : ℕ) := by
    push_cast
    rw [hmax]
    calc (c : ℤ) ≤ (shares.map Prod.fst).sum * ((maxRate (fields.map s)).getD 0 : ℕ) := by
          simpa using hc
      _ ≤ max n 0 * ((maxRate (fields.map s)).getD 0 : ℕ) := by gcongr
  exact_mod_cast hle

theorem le_quotient_charge (hsub : ∀ share ∈ shares, share.2 ⊆ fields) {c : ℕ}
    (h : s.charge shares = some c) (hpos : 0 ≤ (shares.map Prod.fst).sum) :
    (shares.map Prod.fst).sum.toNat * (minRate (fields.map s)).getD 0 / perMillion * perMillion
      ≤ quotient c := by
  obtain ⟨hc, -⟩ := RateSet.charge_bounds
    (fun share hshare rate hrate => RateSet.firstRate_between (hsub share hshare) hrate) h
  refine le_quotient ((Nat.div_mul_le_self _ _).trans ?_)
  have hle : (((shares.map Prod.fst).sum.toNat * (minRate (fields.map s)).getD 0 : ℕ) : ℤ) ≤ c := by
    push_cast
    rw [Int.toNat_of_nonneg hpos]
    simpa using hc
  exact_mod_cast hle

variable {t : ℕ}

theorem RateSet.inputTotal_le (h : s.inputTotal u = some t) (hu : u.Consistent)
    (hn : u.count .input ≤ max n 0) :
    t ≤ ceilPerMillion (max n 0).toNat ((maxRate (inputFields.map s)).getD 0) * perMillion := by
  unfold RateSet.inputTotal at h
  split at h
  · split at h
    · cases h
      exact Nat.zero_le _
    · simp at h
  · split at h
    · obtain ⟨c, hc, rfl⟩ := map_eq_some_iff.1 h
      rw [hu.inputShares_eq] at hc
      exact quotient_charge_le u.inputChains hc (u.sum_exactInputShares ▸ hn)
    · simp at h

theorem RateSet.outputTotal_le (h : s.outputTotal u = some t) (hu : u.Consistent)
    (hn : u.count .output ≤ max n 0) :
    t ≤ ceilPerMillion (max n 0).toNat ((maxRate (outputFields.map s)).getD 0) * perMillion := by
  unfold RateSet.outputTotal at h
  split at h
  · split at h
    · cases h
      exact Nat.zero_le _
    · simp at h
  · split at h
    · obtain ⟨c, hc, rfl⟩ := map_eq_some_iff.1 h
      rw [hu.outputShares_eq] at hc
      exact quotient_charge_le u.outputChains hc (u.sum_exactOutputShares ▸ hn)
    · simp at h

theorem RateSet.le_inputTotal (h : s.inputTotal u = some t) (hu : u.Consistent)
    (hn : u.tokens .input = some n) :
    (max n 0).toNat * (minRate (inputFields.map s)).getD 0 / perMillion * perMillion ≤ t := by
  have hcount : u.count .input = n := by simp [AttemptUsage.count, hn]
  have hpos : 0 ≤ (u.exactInputShares.map Prod.fst).sum := by
    refine sum_nonneg fun x hx => ?_
    obtain ⟨share, hshare, rfl⟩ := mem_map.1 hx
    exact hu.input share hshare
  unfold RateSet.inputTotal at h
  rw [hn] at h
  dsimp only at h
  split at h
  · obtain ⟨c, hc, rfl⟩ := map_eq_some_iff.1 h
    rw [hu.inputShares_eq] at hc
    have := le_quotient_charge u.inputChains hc hpos
    rw [u.sum_exactInputShares, hcount] at hpos this
    rwa [max_eq_left hpos]
  · simp at h

/-! ## Costs and their bounds -/

theorem raiseBy_eq (bound : ℕ) (m : Option ℕ) :
    raiseBy bound m = chainUp costUnit bound m.toList := by
  cases m with
  | none => rfl
  | some m => rw [raiseBy, toList_some, chainUp_singleton]

theorem lowerBy_eq (floor : ℕ) (m : Option ℕ) :
    lowerBy floor m = chainDown costUnit floor m.toList := by
  cases m with
  | none => rfl
  | some m => rw [lowerBy, toList_some, chainDown_singleton]

variable {r : PriceRates} {at_ : ℤ} {successful : Bool} {discount : Option ℕ} {c : Cost}

theorem AttemptUsage.TokenOnly.invocations_eq (hu : u.TokenOnly) :
    u.invocations = if u.deferred then 0 else 1 := by
  have hretained := hu.retained
  simp only [AttemptUsage.retainedValues, Bool.or_eq_false_iff] at hretained
  have hnone : u.invocationCount = none := by simpa using hretained.1.1.1.1
  rw [AttemptUsage.invocations, hnone]
  rfl

theorem PriceRates.requestFee_le (hu : u.TokenOnly) :
    r.requestFee u successful ≤ r.perRequest.getD 0 * perMillion := by
  rw [PriceRates.requestFee, hu.invocations_eq]
  cases u.deferred <;> cases successful <;> simp

variable {output : ℤ}

/-- A cost is at most the token bound of its tier, raised by the window and the discount. -/
theorem PriceRates.cost_le (hu : u.TokenOnly) (hc : u.Consistent)
    (h : r.cost u at_ successful discount = some c) (generation : Bool)
    (hin : u.count .input ≤ max input 0) (hout : u.count .output ≤ max output 0)
    (hgen : generation = false → u.count .output ≤ 0) :
    c.value ≤ (clampCost (raiseBy (raiseBy
      (r.tokenBound (r.selectRates (u.tokens .input)) input output generation)
        (r.windowAt at_)) discount)).value := by
  obtain ⟨i, o, hi, ho, rfl⟩ := PriceRates.cost_eq_some h hu
  set rates := r.selectRates (u.tokens .input) with hrates
  refine clampCost_mono ?_
  have hi' := RateSet.inputTotal_le hi hc hin
  have ho' : o ≤ (if generation then ceilPerMillion (max output 0).toNat
      ((maxRate (outputFields.map rates)).getD 0) else 0) * perMillion := by
    cases generation with
    | true =>
      rw [if_pos rfl]
      exact RateSet.outputTotal_le ho hc hout
    | false =>
      simpa [ceilPerMillion, up, perMillion] using
        RateSet.outputTotal_le (n := 0) ho hc (hgen rfl)
  have hfee : r.requestFee u successful ≤ _ := PriceRates.requestFee_le hu
  have htotal : i + o + r.requestFee u successful
      ≤ r.tokenBound rates input output generation * perMillion := by
    rw [PriceRates.tokenBound, add_mul, add_mul]
    exact Nat.add_le_add (Nat.add_le_add hi' ho') hfee
  rw [raiseBy_eq, raiseBy_eq, ← chainUp_append]
  exact halfUp_prod_le_chainUp (by decide) (by decide) htotal _

/-- A successful attempt that is not deferred pays for the input at the lowest rate and the
fee of a request. -/
theorem PriceRates.le_cost (hu : u.TokenOnly) (hc : u.Consistent)
    (h : r.cost u at_ true discount = some c) (hin : u.tokens .input = some input)
    (hdeferred : u.deferred = false) {f : Cost} (hf : r.costFloor input at_ discount = some f) :
    f.value ≤ c.value := by
  obtain ⟨i, o, hi, ho, rfl⟩ := PriceRates.cost_eq_some h hu
  rw [hin] at hi
  unfold PriceRates.costFloor at hf
  dsimp only at hf
  split at hf
  · simp at hf
  · cases hf
    refine clampCost_mono ?_
    have hfee : r.requestFee u true = r.perRequest.getD 0 * perMillion := by
      rw [PriceRates.requestFee, hu.invocations_eq, hdeferred]
      simp
    have htotal : ((max input 0).toNat *
          (minRate (inputFields.map (r.selectRates (some input)))).getD 0 / perMillion +
        r.perRequest.getD 0) * perMillion ≤ i + o + r.requestFee u true := by
      rw [add_mul, hfee]
      exact Nat.add_le_add_right
        ((RateSet.le_inputTotal hi hc hin).trans (Nat.le_add_right _ _)) _
    rw [lowerBy_eq, lowerBy_eq, ← chainDown_append]
    exact chainDown_le_halfUp_prod (by decide) (by decide) htotal _

/-! ## Admission bounds -/

/-- With the input known, a cost is at most the bound. -/
theorem Price.cost_le_costBound {p : Price} (hu : u.TokenOnly) (hc : u.Consistent)
    (hin : u.tokens .input = some input) (hout : u.count .output ≤ output) {generation : Bool}
    (hgen : generation = false → u.count .output ≤ 0)
    (h : p.cost loadLocation u at_ successful discount = some c) {b : Cost}
    (hb : p.costBound loadLocation input output generation at_ discount = some b) :
    c.value ≤ b.value := by
  obtain ⟨r, hr, hcost⟩ := bind_eq_some_iff.1 h
  rw [Price.costBound, hr] at hb
  replace hb : r.costBound input output generation discount (r.windowAt at_) = some b := hb
  unfold PriceRates.costBound at hb
  dsimp only at hb
  split at hb
  · simp at hb
  · cases hb
    have hcount : u.count .input ≤ input := by simp [AttemptUsage.count, hin]
    have := PriceRates.cost_le hu hc hcost generation (hcount.trans (le_max_left _ _))
      (hout.trans (le_max_left _ _)) hgen
    rwa [hin] at this

/-- What an attempt costs lies within what admission reserves for it and, when it succeeds
and is not deferred, what routing takes as its least cost. -/
theorem cost_within_bounds (loadLocation : Text → Option Location) (p : Price) (u : AttemptUsage)
    (hu : u.TokenOnly) (hc : u.Consistent) (input output : ℤ) (hin : u.tokens .input = some input)
    (hout : u.count .output ≤ output) (generation : Bool)
    (hgen : generation = false → u.count .output ≤ 0) (at_ : ℤ) (successful : Bool)
    (discount : Option ℕ) (c : Cost)
    (h : p.cost loadLocation u at_ successful discount = some c) :
    (∀ b, p.costBound loadLocation input output generation at_ discount = some b →
        c.value ≤ b.value) ∧
      (successful = true → u.deferred = false →
        ∀ f, p.costFloor loadLocation input at_ discount = some f → f.value ≤ c.value) := by
  constructor
  · intro b hb
    exact Price.cost_le_costBound hu hc hin hout hgen h hb
  · rintro rfl hdeferred f hf
    obtain ⟨r, hr, hcost⟩ := bind_eq_some_iff.1 h
    rw [Price.costFloor, hr] at hf
    exact PriceRates.le_cost hu hc hcost hin hdeferred hf

/-- A price with rates for input, cached input and output and a fee for each request. -/
def flatPrice : Price where
  rates
    | .input => some ['3']
    | .cached => some "0.3".toList
    | .output => some "15".toList
    | _ => none
  unitPrice := none
  perRequest := some "0.01".toList
  batchMultiplier := none
  toolCalls := []
  tiers := []
  windows := none
  trainingPerMillion := none
  storagePerGibDay := none
  cacheStoragePerMillionTokenHour := none
  containerPerSession := []

/-- Usage of tokens, some of the input from the cache. -/
def tokenUsage (input cached output : ℤ) (deferred : Bool) : AttemptUsage where
  tokens
    | .input => some input
    | .cachedInput => some cached
    | .output => some output
    | _ => none
  mediaUnits := none
  toolCalls := []
  batch := false
  complete := true
  deferred := deferred
  invocationCount := none
  trainingTokens := none
  storageByteSeconds := none
  cacheTokenSeconds := none
  containerSessions := []

theorem tokenUsage_tokenOnly (input cached output : ℤ) (deferred : Bool) :
    (tokenUsage input cached output deferred).TokenOnly := ⟨rfl, rfl, rfl, rfl⟩

theorem tokenUsage_consistent {cached : ℤ} (h₀ : 0 ≤ cached) (h₁ : cached ≤ input)
    (h₂ : input < 2 ^ 63) (h₃ : 0 ≤ output) (h₄ : output < 2 ^ 63) (deferred : Bool) :
    (tokenUsage input cached output deferred).Consistent where
  tokens c n h := by
    cases c <;> simp [tokenUsage] at h <;> omega
  input := by
    simp [AttemptUsage.exactInputShares, AttemptUsage.count, tokenUsage]
    omega
  output := by
    simp [AttemptUsage.exactOutputShares, AttemptUsage.count, tokenUsage]
    omega

theorem cost_within_bounds_flatPrice :
    ∃ f c b, flatPrice.costFloor (fun _ => none) 1200 0 none = some f ∧
      flatPrice.cost (fun _ => none) (tokenUsage 1200 200 300 false) 0 true none = some c ∧
      flatPrice.costBound (fun _ => none) 1200 400 true 0 none = some b ∧
      f.value ≤ c.value ∧ c.value ≤ b.value := by
  have hf : flatPrice.costFloor (fun _ => none) 1200 0 none = some ⟨some 10360000000⟩ := by
    decide
  have hc : flatPrice.cost (fun _ => none) (tokenUsage 1200 200 300 false) 0 true none
      = some ⟨some 17560000000⟩ := by decide
  have hb : flatPrice.costBound (fun _ => none) 1200 400 true 0 none
      = some ⟨some 19600000000⟩ := by decide
  obtain ⟨hbound, hfloor⟩ := cost_within_bounds (fun _ => none) flatPrice
    (tokenUsage 1200 200 300 false) (tokenUsage_tokenOnly ..)
    (tokenUsage_consistent (by decide) (by decide) (by decide) (by decide) (by decide) _)
    1200 400 rfl (by decide) true (by decide) 0 true none _ hc
  exact ⟨_, _, _, hf, hc, hb, hfloor rfl rfl _ hf, hbound _ hb⟩

/-- Deferred usage pays no fee of a request, so a successful attempt can cost less than the
floor. -/
theorem deferred_below_floor :
    (tokenUsage 1200 1200 0 true).TokenOnly ∧ (tokenUsage 1200 1200 0 true).Consistent ∧
      flatPrice.cost (fun _ => none) (tokenUsage 1200 1200 0 true) 0 true none
        = some ⟨some 360000000⟩ ∧
      flatPrice.costFloor (fun _ => none) 1200 0 none = some ⟨some 10360000000⟩ :=
  ⟨tokenUsage_tokenOnly .., tokenUsage_consistent (by decide) (by decide) (by decide) (by decide)
    (by decide) _, by decide, by decide⟩

/-! ## Workflow steps -/

/-- Inputs above the same thresholds select the same rates. -/
theorem PriceRates.selectRates_congr {a b : ℤ}
    (h : ∀ tier ∈ r.tiers, tier.above < a ↔ tier.above < b) :
    r.selectRates (some a) = r.selectRates (some b) := by
  refine foldl_ext _ _ _ fun selected tier htier => ?_
  simp only [h tier htier]

theorem PriceRates.selectRates_of_le {a : ℤ} (h : ∀ tier ∈ r.tiers, a ≤ tier.above) :
    r.selectRates (some a) = r.rates := by
  have hfold : ∀ tiers : List ParsedTier, (∀ tier ∈ tiers, a ≤ tier.above) →
      tiers.foldl (fun selected tier => if tier.above < a then tier.rates else selected) r.rates
        = r.rates := by
    intro tiers htiers
    induction tiers with
    | nil => rfl
    | cons tier tiers ih =>
      rw [foldl_cons, if_neg (Int.not_lt.2 (htiers tier mem_cons_self))]
      exact ih fun t ht => htiers t (mem_cons_of_mem _ ht)
  exact hfold r.tiers h

/-- Between a number and a larger one, some threshold or the larger number itself is the
first to be reached. -/
theorem exists_first_reached (ts : List ℤ) {i : ℤ} (h : i ≤ input) :
    ∃ t, (t = input ∨ t ∈ ts ∧ t < input) ∧ i ≤ t ∧ ∀ x ∈ ts, x < t → x < i := by
  induction ts with
  | nil => exact ⟨input, .inl rfl, h, by simp⟩
  | cons x ts ih =>
    obtain ⟨t, ht, hle, hfirst⟩ := ih
    by_cases hx : i ≤ x ∧ x < t
    · have hlt : x < input := by
        rcases ht with rfl | ⟨-, ht⟩
        · exact hx.2
        · exact hx.2.trans ht
      refine ⟨x, .inr ⟨mem_cons_self, hlt⟩, hx.1, fun y hy hyx => ?_⟩
      rcases mem_cons.1 hy with rfl | hy
      · exact absurd hyx (lt_irrefl _)
      · exact hfirst y hy (hyx.trans hx.2)
    · refine ⟨t, ht.imp_right fun ht => ⟨mem_cons_of_mem _ ht.1, ht.2⟩, hle,
        fun y hy hyt => ?_⟩
      rcases mem_cons.1 hy with rfl | hy
      · exact Int.not_le.1 fun hiy => hx ⟨hiy, hyt⟩
      · exact hfirst y hy hyt

theorem exists_le_all (ts : List ℤ) (input : ℤ) : ∃ i ≤ input, ∀ x ∈ ts, i ≤ x := by
  induction ts with
  | nil => exact ⟨input, le_rfl, by simp⟩
  | cons x ts ih =>
    obtain ⟨i, hle, hall⟩ := ih
    refine ⟨min i x, (min_le_left _ _).trans hle, fun y hy => ?_⟩
    rcases mem_cons.1 hy with rfl | hy
    · exact min_le_right _ _
    · exact (min_le_left _ _).trans (hall y hy)

/-- The bound through the tiers covers the bound at the input and at every threshold
below it. -/
theorem PriceRates.le_workflowModelCostThroughTiers {tiers : List PriceTier} {b : Cost}
    (h : r.workflowModelCostThroughTiers discount input output tiers = some b) {t : ℤ}
    (ht : t = input ∨ t ∈ tiers.map (·.aboveInputTokens) ∧ t < input) :
    ∃ b', r.costBound t output true discount r.maximumWindow = some b' ∧ b'.value ≤ b.value := by
  induction tiers generalizing b with
  | nil =>
    obtain rfl : t = input := by simpa using ht
    exact ⟨b, h, le_rfl⟩
  | cons tier tiers ih =>
    obtain ⟨bound, hbound, hrest⟩ := bind_eq_some_iff.1 h
    -- the bound through the other tiers is at most the result
    have hle : bound.value ≤ b.value ∧ (tier.aboveInputTokens < input →
        ∃ prior, r.costBound tier.aboveInputTokens output true discount r.maximumWindow
          = some prior ∧ prior.value ≤ b.value) := by
      split at hrest
      · cases hrest
        exact ⟨le_rfl, fun hlt => absurd hlt (by omega)⟩
      · obtain ⟨prior, hprior, hrest⟩ := bind_eq_some_iff.1 hrest
        split at hrest
        · obtain rfl := some.inj hrest
          exact ⟨Nat.le_of_lt ‹_›, fun _ => ⟨prior, hprior, le_rfl⟩⟩
        · cases hrest
          exact ⟨le_rfl, fun _ => ⟨prior, hprior, Nat.not_lt.1 ‹_›⟩⟩
    rcases ht with rfl | ⟨hmem, hlt⟩
    · obtain ⟨b', hb', hle'⟩ := ih hbound (.inl rfl)
      exact ⟨b', hb', hle'.trans hle.1⟩
    · rcases mem_cons.1 hmem with rfl | hmem
      · exact hle.2 hlt
      · obtain ⟨b', hb', hle'⟩ := ih hbound (.inr ⟨hmem, hlt⟩)
        exact ⟨b', hb', hle'.trans hle.1⟩

/-- No window scales a bound by more than the highest does. -/
theorem PriceRates.raiseBy_windowAt_le (b : ℕ) :
    raiseBy b (r.windowAt at_) ≤ raiseBy b r.maximumWindow := by
  have hpos : 0 < costUnit := by decide
  -- what the highest window leaves is at least the bound itself
  have hself : b ≤ raiseBy b r.maximumWindow := by
    unfold PriceRates.maximumWindow
    split
    · rfl
    · split
      · rfl
      · rename_i hlt
        refine Nat.le_of_mul_le_mul_right ?_ hpos
        calc b * costUnit ≤ b * _ := Nat.mul_le_mul_left b (Nat.le_of_lt (Nat.not_le.1 hlt))
          _ ≤ _ := le_up_mul _ hpos
  cases hw : r.windowAt at_ with
  | none => exact hself
  | some m =>
    have hmem : m ∈ r.windows.map (·.multiplier) := by
      unfold PriceRates.windowAt at hw
      split at hw
      · simp at hw
      · obtain ⟨w, hfind, rfl⟩ := map_eq_some_iff.1 hw
        exact mem_map_of_mem (mem_of_find?_eq_some hfind)
    unfold PriceRates.maximumWindow
    split
    · rename_i hnone
      rw [max?_eq_none_iff.1 hnone] at hmem
      simp at hmem
    · rename_i M hM
      have hle : m ≤ M := (max?_eq_some_iff.1 hM).2 m hmem
      split
      · rename_i hone
        exact up_le hpos (Nat.mul_le_mul_left b (hle.trans hone))
      · rw [raiseBy]
        exact up_mono (Nat.mul_le_mul_left b hle)

theorem mapM_parseTier {tiers : List PriceTier} {parsed : List ParsedTier}
    (h : tiers.mapM parseTier = some parsed) :
    parsed.map (·.above) = tiers.map (·.aboveInputTokens) := by
  induction tiers generalizing parsed with
  | nil =>
    obtain rfl : [] = parsed := by simpa using h
    rfl
  | cons tier tiers ih =>
    rw [mapM_cons] at h
    obtain ⟨t, ht, hrest⟩ := bind_eq_some_iff.1 h
    obtain ⟨ts, hts, hrest⟩ := bind_eq_some_iff.1 hrest
    obtain rfl : t :: ts = parsed := by simpa using hrest
    obtain ⟨rates, -, rfl⟩ := map_eq_some_iff.1 ht
    rw [map_cons, map_cons, ih hts]

theorem parseRates_tiers {p : Price} (h : parseRates loadLocation p = some r) :
    r.tiers.map (·.above) = p.tiers.map (·.aboveInputTokens) := by
  simp only [parseRates, Option.bind_eq_bind, Option.bind_eq_some_iff, Option.pure_def,
    Option.some.injEq] at h
  obtain ⟨-, -, -, -, -, -, -, -, -, -, -, -, tiers, htiers, -, -, rfl⟩ := h
  exact mapM_parseTier htiers

/-- The cost of a workflow step is within its bound whatever smaller input it turns out to
have, in whatever window it starts. -/
theorem workflow_bound_covers (loadLocation : Text → Option Location) (p : Price)
    (u : AttemptUsage) (hu : u.TokenOnly) (hc : u.Consistent) (input output : ℤ)
    (hin : u.count .input ≤ input) (hout : u.count .output ≤ output) (at_ : ℤ)
    (successful : Bool) (discount : Option ℕ) (c b : Cost)
    (h : p.cost loadLocation u at_ successful discount = some c)
    (hb : p.workflowModelCostBound loadLocation input output discount = some b) :
    c.value ≤ b.value := by
  obtain ⟨r, hr, hcost⟩ := bind_eq_some_iff.1 h
  unfold Price.workflowModelCostBound at hb
  split at hb
  · simp at hb
  · rw [hr] at hb
    replace hb : r.workflowModelCostThroughTiers discount input output p.tiers = some b := hb
    -- the point of the bound that selects the rates of the attempt
    obtain ⟨t, ht, hle, hrates⟩ : ∃ t, (t = input ∨
        t ∈ p.tiers.map (·.aboveInputTokens) ∧ t < input) ∧ u.count .input ≤ max t 0 ∧
        r.selectRates (some t) = r.selectRates (u.tokens .input) := by
      have hmem : ∀ tier ∈ r.tiers, tier.above ∈ p.tiers.map (·.aboveInputTokens) :=
        fun tier htier => parseRates_tiers hr ▸ mem_map_of_mem htier
      cases hn : u.tokens .input with
      | none =>
        obtain ⟨i, hi, hall⟩ := exists_le_all (p.tiers.map (·.aboveInputTokens)) input
        obtain ⟨t, ht, hit, hfirst⟩ := exists_first_reached (p.tiers.map (·.aboveInputTokens)) hi
        refine ⟨t, ht, by simp [AttemptUsage.count, hn], PriceRates.selectRates_of_le ?_⟩
        intro tier htier
        have := hall _ (hmem tier htier)
        exact Int.not_lt.1 fun hlt => absurd (hfirst _ (hmem tier htier) hlt) (by omega)
      | some n =>
        have hcount : u.count .input = n := by simp [AttemptUsage.count, hn]
        rw [hcount] at hin
        obtain ⟨t, ht, hnt, hfirst⟩ := exists_first_reached (p.tiers.map (·.aboveInputTokens)) hin
        refine ⟨t, ht, hcount ▸ hnt.trans (le_max_left _ _), PriceRates.selectRates_congr ?_⟩
        intro tier htier
        exact ⟨hfirst _ (hmem tier htier), fun hlt => hlt.trans_le hnt⟩
    obtain ⟨b', hb', hle'⟩ := PriceRates.le_workflowModelCostThroughTiers hb ht
    refine le_trans ?_ hle'
    unfold PriceRates.costBound at hb'
    dsimp only at hb'
    split at hb'
    · simp at hb'
    · cases hb'
      rw [hrates]
      refine (PriceRates.cost_le hu hc hcost true hle (hout.trans (le_max_left _ _))
        (by simp)).trans (clampCost_mono ?_)
      rw [raiseBy_eq _ discount, raiseBy_eq _ discount]
      exact chainUp_mono (PriceRates.raiseBy_windowAt_le _) (List.forall₂_refl _)

/-- A price with a dearer tier above a thousand tokens and double rates on Mondays. -/
def mondayPrice : Price where
  rates
    | .input => some ['3']
    | .output => some "15".toList
    | _ => none
  unitPrice := none
  perRequest := none
  batchMultiplier := none
  toolCalls := []
  tiers := [⟨1000, fun | .input => some ['6'] | .output => some ['9'] | _ => none⟩]
  windows := some ⟨"UTC".toList, [⟨[1], "00:00".toList, "24:00".toList, ['2']⟩]⟩
  trainingPerMillion := none
  storagePerGibDay := none
  cacheStoragePerMillionTokenHour := none
  containerPerSession := []

def monday : Text → Option Location := fun _ => some fun _ => ⟨1, 0, 0⟩

/-- The short input misses the dearer tier, but its output is billed at a higher rate. -/
theorem workflow_bound_covers_mondayPrice :
    ∃ c b, mondayPrice.cost monday (tokenUsage 900 0 1000 false) 0 true none = some c ∧
      mondayPrice.workflowModelCostBound monday 1200 1000 none = some b ∧ c.value ≤ b.value := by
  have hc : mondayPrice.cost monday (tokenUsage 900 0 1000 false) 0 true none
      = some ⟨some 35400000000⟩ := by decide
  have hb : mondayPrice.workflowModelCostBound monday 1200 1000 none
      = some ⟨some 36000000000⟩ := by decide
  exact ⟨_, _, hc, hb, workflow_bound_covers monday mondayPrice (tokenUsage 900 0 1000 false)
    (tokenUsage_tokenOnly ..)
    (tokenUsage_consistent (by decide) (by decide) (by decide) (by decide) (by decide) _)
    1200 1000 (by decide) (by decide) 0 true none _ _ hc hb⟩

end Olp.Pricing
