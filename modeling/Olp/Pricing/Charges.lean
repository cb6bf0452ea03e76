import Olp.Pricing.Bounds

/-!
# What the consumer pays

A rate card charges an attempt at an explicit price of its own or at the attempt's cost
times a markup.  `ChargeBound` bounds that from the same request as `CostBound` does, and
encloses it the same way: an explicit price is bounded like any price, a markup rounds up
where the charge rounds half up.
-/

namespace Olp.Pricing

open Rounding

variable {u : AttemptUsage} {at_ : ℤ} {successful : Bool}

/-! ## Rate cards -/

/-- A price of a rate card, for the attempts of its dimensions. -/
structure CardPrice where
  providerKind : Text
  vendorId : Option Text
  model : Text
  operation : Text
  price : Price

/-- `RoutingCardRevision`, with its markup parsed. -/
structure RoutingCardRevision where
  prices : List CardPrice
  markup : ℕ

/-- The dimensions of an attempt that rate cards look at. -/
structure Dimensions where
  kind : Text
  vendor : Text
  model : Text
  operation : Text

/-- The price is for the dimensions. -/
def CardPrice.appliesTo (p : CardPrice) (d : Dimensions) : Bool :=
  p.providerKind = d.kind ∧ p.model = d.model ∧ p.operation = d.operation ∧
    p.vendorId.all (· = d.vendor)

/-- `Explicit`: the last vendor-scoped price of the dimensions, else the first unscoped
one. -/
def RoutingCardRevision.explicit (r : RoutingCardRevision) (d : Dimensions) : Option CardPrice :=
  r.prices.foldl (fun found p =>
    if p.appliesTo d = true ∧ (found.isNone ∨ p.vendorId.isSome) then some p else found) none

/-- `Charge`. -/
def RoutingCardRevision.charge (loadLocation : Text → Option Location) (r : RoutingCardRevision)
    (u : AttemptUsage) (startedAt : ℤ) (successful : Bool) (cost : Option Cost) (d : Dimensions) :
    Option Cost :=
  match r.explicit d with
  | some explicit => explicit.price.cost loadLocation u startedAt successful none
  | none =>
    match cost with
    | none => none
    | some cost =>
      match cost.units with
      -- a zero cost charges zero under any markup
      | none => some ⟨some 0⟩
      | some units => some (clampCost (halfUp (units * r.markup) costUnit))

/-- `ChargeBound`. -/
def RoutingCardRevision.chargeBound (loadLocation : Text → Option Location)
    (r : RoutingCardRevision) (input output : ℤ) (generation : Bool) (at_ : ℤ) (bound : Cost)
    (d : Dimensions) : Option Cost :=
  match r.explicit d with
  | some explicit => explicit.price.costBound loadLocation input output generation at_ none
  | none =>
    match bound.units with
    | none => some ⟨some 0⟩
    | some units => some (clampCost (up (units * r.markup) costUnit))

section Markup

variable {loadLocation : Text → Option Location} {card : RoutingCardRevision} {d : Dimensions}

/-- Without an explicit price the charge is the provider cost with the markup, rounded once. -/
theorem RoutingCardRevision.charge_markup (he : card.explicit d = none) (cost : Cost) :
    ∃ x, card.charge loadLocation u at_ successful (some cost) d = some x ∧
      x.value = (clampCost (halfUp (cost.value * card.markup) costUnit)).value := by
  obtain ⟨units⟩ := cost
  unfold RoutingCardRevision.charge
  rw [he]
  cases units with
  | none =>
    refine ⟨⟨some 0⟩, rfl, ?_⟩
    have hzero : halfUp (Cost.value ⟨none⟩ * card.markup) costUnit = 0 :=
      Nat.le_zero.1 (halfUp_le (by decide) (by simp [Cost.value]))
    rw [hzero]
    rfl
  | some units => exact ⟨_, rfl, rfl⟩

/-- The bound is the bound of the cost with the markup, rounded up. -/
theorem RoutingCardRevision.chargeBound_markup (he : card.explicit d = none) {input output : ℤ}
    {generation : Bool} {bound b : Cost}
    (h : card.chargeBound loadLocation input output generation at_ bound d = some b) :
    b.value = (clampCost (up (bound.value * card.markup) costUnit)).value := by
  obtain ⟨units⟩ := bound
  unfold RoutingCardRevision.chargeBound at h
  rw [he] at h
  cases units with
  | none =>
    obtain rfl : (⟨some 0⟩ : Cost) = b := Option.some.inj h
    have hzero : up (Cost.value ⟨none⟩ * card.markup) costUnit = 0 :=
      Nat.le_zero.1 (up_le (by decide) (by simp [Cost.value]))
    rw [hzero]
    rfl
  | some units =>
    cases h
    rfl

end Markup

/-! ## Charge bounds -/

/-- What the consumer pays is within the bound of it when the cost is within its own, and
it grows with the cost. -/
theorem charge_within_bound (loadLocation : Text → Option Location) (card : RoutingCardRevision)
    (d : Dimensions) (u : AttemptUsage) (hu : u.TokenOnly) (hc : u.Consistent)
    (input output : ℤ) (hin : u.tokens .input = some input) (hout : u.count .output ≤ output)
    (generation : Bool) (hgen : generation = false → u.count .output ≤ 0) (at_ : ℤ)
    (successful : Bool) :
    (∀ (cost : Option Cost) (bound x b : Cost), (∀ k, cost = some k → k.value ≤ bound.value) →
        card.charge loadLocation u at_ successful cost d = some x →
        card.chargeBound loadLocation input output generation at_ bound d = some b →
        x.value ≤ b.value) ∧
      ∀ low high : Cost, low.value ≤ high.value →
        (card.charge loadLocation u at_ successful (some low) d).isSome
            = (card.charge loadLocation u at_ successful (some high) d).isSome ∧
          ∀ x y, card.charge loadLocation u at_ successful (some low) d = some x →
            card.charge loadLocation u at_ successful (some high) d = some y →
            x.value ≤ y.value := by
  cases he : card.explicit d with
  | some explicit =>
    have hcharge : ∀ cost, card.charge loadLocation u at_ successful cost d
        = explicit.price.cost loadLocation u at_ successful none := by
      intro cost
      rw [RoutingCardRevision.charge.eq_def, he]
    refine ⟨fun cost bound x b _ hx hb => ?_, fun low high _ => ⟨by rw [hcharge, hcharge], ?_⟩⟩
    · rw [hcharge] at hx
      rw [RoutingCardRevision.chargeBound, he] at hb
      exact Price.cost_le_costBound hu hc hin hout hgen hx hb
    · intro x y hx hy
      rw [hcharge] at hx hy
      cases hx.symm.trans hy
      exact le_rfl
  | none =>
    have hmarkup : ∀ cost : Cost, ∃ x,
        card.charge loadLocation u at_ successful (some cost) d = some x ∧
          x.value = (clampCost (halfUp (cost.value * card.markup) costUnit)).value :=
      fun cost => RoutingCardRevision.charge_markup he cost
    refine ⟨fun cost bound x b hle hx hb => ?_, fun low high hle => ?_⟩
    · cases cost with
      | none =>
        unfold RoutingCardRevision.charge at hx
        simp [he] at hx
      | some cost =>
        obtain ⟨x', hx', hvalue⟩ := hmarkup cost
        cases hx'.symm.trans hx
        rw [hvalue, RoutingCardRevision.chargeBound_markup he hb]
        exact clampCost_mono ((halfUp_le_up _ (by decide)).trans
          (up_mono (Nat.mul_le_mul_right _ (hle cost rfl))))
    · obtain ⟨x', hx', hxvalue⟩ := hmarkup low
      obtain ⟨y', hy', hyvalue⟩ := hmarkup high
      refine ⟨by rw [hx', hy']; rfl, fun x y hx hy => ?_⟩
      cases hx'.symm.trans hx
      cases hy'.symm.trans hy
      rw [hxvalue, hyvalue]
      exact clampCost_mono (halfUp_mono (Nat.mul_le_mul_right _ hle))

def halfMarkup : RoutingCardRevision := ⟨[], 1500000000000⟩

theorem charge_within_bound_halfMarkup :
    ∃ x b, halfMarkup.charge (fun _ => none) (tokenUsage 1200 200 300 false) 0 true
        (some ⟨some 17560000001⟩) ⟨[], [], [], []⟩ = some x ∧
      halfMarkup.chargeBound (fun _ => none) 1200 400 true 0 ⟨some 19600000000⟩
        ⟨[], [], [], []⟩ = some b ∧ x.value ≤ b.value := by
  have hx : halfMarkup.charge (fun _ => none) (tokenUsage 1200 200 300 false) 0 true
      (some ⟨some 17560000001⟩) ⟨[], [], [], []⟩ = some ⟨some 26340000002⟩ := by decide
  have hb : halfMarkup.chargeBound (fun _ => none) 1200 400 true 0 ⟨some 19600000000⟩
      ⟨[], [], [], []⟩ = some ⟨some 29400000000⟩ := by decide
  have := (charge_within_bound (fun _ => none) halfMarkup ⟨[], [], [], []⟩
    (tokenUsage 1200 200 300 false) (tokenUsage_tokenOnly ..)
    (tokenUsage_consistent (by decide) (by decide) (by decide) (by decide) (by decide) _)
    1200 400 rfl (by decide) true (by decide) 0 true).1 (some ⟨some 17560000001⟩)
      ⟨some 19600000000⟩ _ _ (fun k hk => by cases hk; decide) hx hb
  exact ⟨_, _, hx, hb, this⟩

end Olp.Pricing
