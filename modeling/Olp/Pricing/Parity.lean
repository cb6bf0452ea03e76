import Olp.Pricing.Accepted
import Mathlib.Data.List.Find

/-!
# The gateway prices as the database does

`cost` of `pricing_cost.go` and `olp.price_usage` are two programs for one number.  Over a
price entry that its validation accepts and over consistent usage without retained
quantities they agree part by part: on the rates that are selected (`selectRates_eq`), on
the token charges (`billShares_eq`), on the scale and the value of the quotients by a
million (`div_million`), on fees and multipliers, and on the one rounding at the end.

The one exception are media units that are spelled as a negative zero: they pass the
validation of events, the database prices them as nothing, and `scaledDecimal` refuses them.
-/

namespace Olp.Pricing

open Limits Text List

/-! ## Quotients by a million -/

/-- Skipping groups of zeros leaves the value alone and stops before it is used up. -/
theorem zeroGroups_spec (n : ℕ) {t : Text} (hlen : t.length = 4 * n) (hd : IsDigits t)
    (hv : value t ≠ 0) :
    zeroGroups t < n ∧ value ((t.drop (zeroGroups t * 4)).take 4) ≠ 0 ∧
      value (t.drop (zeroGroups t * 4)) = value t := by
  induction n generalizing t with
  | zero =>
    obtain rfl : t = [] := length_eq_zero_iff.1 hlen
    simp at hv
  | succ n ih =>
    match t, hlen with
    | a :: b :: c :: d :: rest, hlen =>
      have hrest : rest.length = 4 * n := by
        simp only [length_cons] at hlen
        omega
      have hdrest : IsDigits rest := hd.sublist (sublist_append_right [a, b, c, d] rest)
      have hgroup : IsDigits [a, b, c, d] :=
        hd.sublist (sublist_append_left [a, b, c, d] rest)
      by_cases hzero : [a, b, c, d] = List.replicate 4 '0'
      · obtain ⟨rfl, rfl, rfl, rfl⟩ : a = '0' ∧ b = '0' ∧ c = '0' ∧ d = '0' := by
          simpa [List.replicate] using hzero
        have hvalue : value ('0' :: '0' :: '0' :: '0' :: rest) = value rest := by
          have := value_append (List.replicate 4 '0') rest
          rwa [value_replicate, zero_mul, zero_add] at this
        obtain ⟨hlt, hne, heq⟩ := ih hrest hdrest (hvalue ▸ hv)
        have hgroups : zeroGroups ('0' :: '0' :: '0' :: '0' :: rest) = zeroGroups rest + 1 := rfl
        rw [hgroups, hvalue, add_mul]
        exact ⟨Nat.succ_lt_succ hlt, hne, heq⟩
      · have hgroups : zeroGroups (a :: b :: c :: d :: rest) = 0 := by
          unfold zeroGroups
          split
          · rename_i heq
            obtain ⟨rfl, rfl, rfl, rfl, -⟩ :
                a = '0' ∧ b = '0' ∧ c = '0' ∧ d = '0' ∧ _ := by simpa using heq
            simp [List.replicate] at hzero
          · rfl
        rw [hgroups]
        refine ⟨Nat.succ_pos n, fun hnil => hzero ?_, rfl⟩
        refine eq_of_value_eq hgroup (isDigits_replicate 4) rfl ?_
        exact hnil

variable {c : ℕ}

/-- The leading group of a charge as a number between powers of ten. -/
theorem leadingGroup_nat (hc : c ≠ 0) :
    ∃ e : ℕ, (e : ℤ) = 12 + (leadingGroup c).1 * 4 ∧ 0 < (leadingGroup c).2 ∧
      (leadingGroup c).2 < 10000 ∧ (leadingGroup c).2 * 10 ^ e ≤ c ∧
      c < ((leadingGroup c).2 + 1) * 10 ^ e := by
  have hdig := isDigits_ofNat c
  have hval := value_ofNat c
  have hlow := pow_le_value hdig (noLeadingZero_ofNat hc) (ofNat_ne_nil c)
  have hhigh := value_lt hdig
  rw [hval] at hlow hhigh
  -- a quotient by a power of ten that is not zero and has at most four digits
  have hdiv : ∀ e, c / 10 ^ e * 10 ^ e ≤ c ∧ c < (c / 10 ^ e + 1) * 10 ^ e := fun e =>
    ⟨Nat.div_mul_le_self _ _, by
      rw [mul_comm]
      exact Nat.lt_mul_div_succ c (Nat.pow_pos (by decide))⟩
  by_cases hlen : costDigits < (ofNat c).length
  · set len := (ofNat c).length with hlendef
    set w := (len - 12 - 1) / 4 with hw
    have hgroup : leadingGroup c = ((w : ℤ), value ((ofNat c).take (len - 12 - 4 * w))) :=
      if_pos hlen
    unfold costDigits at hlen
    have hj : len - (len - 12 - 4 * w) = 12 + 4 * w := by omega
    have hlead : value ((ofNat c).take (len - 12 - 4 * w)) = c / 10 ^ (12 + 4 * w) := by
      rw [value_take hdig, hval, ← hlendef, hj]
    rw [hgroup, hlead]
    refine ⟨12 + 4 * w, by push_cast; ring, ?_⟩
    refine ⟨Nat.div_pos (le_trans (Nat.pow_le_pow_right (by decide) (by omega)) hlow)
      (Nat.pow_pos (by decide)), ?_, hdiv _⟩
    refine Nat.div_lt_of_lt_mul (lt_of_lt_of_le hhigh ?_)
    calc 10 ^ len ≤ 10 ^ (12 + 4 * w + 4) := Nat.pow_le_pow_right (by decide) (by omega)
      _ = 10 ^ (12 + 4 * w) * 10000 := by norm_num [pow_add]
  · set fraction := List.replicate (12 - (ofNat c).length) '0' ++ ofNat c with hfraction
    have hgroup : leadingGroup c = (-((zeroGroups fraction : ℤ) + 1),
        value ((fraction.drop (zeroGroups fraction * 4)).take 4)) := if_neg hlen
    unfold costDigits at hlen
    have hfdig : IsDigits fraction := isDigits_append.2 ⟨isDigits_replicate _, hdig⟩
    have hflen : fraction.length = 4 * 3 := by
      rw [hfraction, length_append, length_replicate]
      omega
    have hfval : value fraction = c := by
      rw [hfraction, value_append, value_replicate, zero_mul, zero_add, hval]
    obtain ⟨hlt, hne, heq⟩ := zeroGroups_spec 3 hflen hfdig (by rwa [hfval])
    set g := zeroGroups fraction with hg
    have hrest := hfdig.sublist (drop_sublist (g * 4) fraction)
    have hlead : value ((fraction.drop (g * 4)).take 4) = c / 10 ^ (8 - 4 * g) := by
      rw [value_take hrest, heq, hfval, length_drop, hflen]
      congr 2
      omega
    rw [hlead] at hgroup hne
    rw [hgroup]
    refine ⟨8 - 4 * g, by dsimp only; omega, ?_⟩
    refine ⟨Nat.pos_of_ne_zero hne, ?_, hdiv _⟩
    refine Nat.div_lt_of_lt_mul ?_
    calc c = value (fraction.drop (g * 4)) := by rw [heq, hfval]
      _ < 10 ^ (fraction.drop (g * 4)).length := value_lt hrest
      _ = 10 ^ (8 - 4 * g) * 10000 := by
          rw [length_drop, hflen, show 4 * 3 - g * 4 = 8 - 4 * g + 4 by omega, pow_add]
          norm_num

theorem leadingGroup_eq (hc : c ≠ 0) :
    Numeric.weight ((c : ℚ) / costUnit) = (leadingGroup c).1 ∧
      Numeric.leading ((c : ℚ) / costUnit) = (leadingGroup c).2 := by
  obtain ⟨e, he, hpos, hlt, hlow, hhigh⟩ := leadingGroup_nat hc
  have hpow : (10000 : ℚ) ^ (leadingGroup c).1 = (10 ^ e : ℕ) / costUnit := by
    have h10 : (10000 : ℚ) = 10 ^ (4 : ℤ) := by norm_num
    have hexp : (4 : ℤ) * (leadingGroup c).1 = e - 12 := by omega
    rw [h10, ← zpow_mul, hexp, zpow_sub₀ (by norm_num), costUnit, costDigits]
    norm_num
  have hunit : (0 : ℚ) < costUnit := by norm_num [costUnit, costDigits]
  refine Numeric.leading_eq hpos hlt ?_ ?_
  · rw [hpow, mul_div_assoc', div_le_div_iff_of_pos_right hunit]
    exact_mod_cast hlow
  · rw [hpow, mul_div_assoc', div_lt_div_iff_of_pos_right hunit]
    exact_mod_cast hhigh

theorem leading_million : Numeric.weight 1000000 = 1 ∧ Numeric.leading 1000000 = (100 : ℕ) := by
  refine Numeric.leading_eq (by decide) (by decide) ?_ ?_
  · norm_num
  · norm_num

theorem divScale_million (hc : c ≠ 0) :
    Numeric.divScale ⟨(c : ℚ) / costUnit, costDigits⟩ (.ofInt 1000000) = quotientScale c := by
  obtain ⟨hw, hl⟩ := leadingGroup_eq hc
  obtain ⟨hw', hl'⟩ := leading_million
  simp only [Numeric.divScale, Numeric.ofInt, quotientScale, Int.cast_ofNat, hw, hl, hw', hl',
    Nat.cast_le, Nat.cast_zero]
  split <;> omega

theorem div_million {b : Numeric} (hv : b.value = (c : ℚ) / costUnit)
    (hs : c ≠ 0 → b.scale = costDigits) :
    (b.div (.ofInt 1000000)).value = (quotient c : ℚ) / 10 ^ 18 := by
  by_cases hc : c = 0
  · subst hc
    norm_num [Numeric.div, hv, Numeric.roundTo, quotient]
  · obtain ⟨value, scale⟩ := b
    obtain rfl : value = (c : ℚ) / costUnit := hv
    obtain rfl : scale = costDigits := hs hc
    have hquot : (c : ℚ) / costUnit / (1000000 : ℤ) = (c : ℚ) / 10 ^ 18 := by
      norm_num [costUnit, costDigits, div_div]
    rw [Numeric.div, divScale_million hc]
    change Numeric.roundTo ((c : ℚ) / costUnit / (1000000 : ℤ)) _ = _
    rw [hquot, quotient, if_neg hc]
    by_cases hscale : quotientDigits ≤ (quotientScale c).toNat
    · rw [if_pos hscale]
      exact Numeric.roundTo_of_le c hscale
    · rw [if_neg hscale]
      have hlt : (quotientScale c).toNat < 18 := Nat.not_le.1 hscale
      have heven : 2 ∣ 10 ^ (18 - (quotientScale c).toNat) :=
        dvd_pow (by decide) (Nat.sub_ne_zero_of_lt hlt)
      rw [Numeric.roundTo_div c hlt, Rounding.halfUp_eq_ite c heven (Nat.pow_pos (by decide))]
      have hpow :
          (10 : ℚ) ^ 18 = 10 ^ (18 - (quotientScale c).toNat) * 10 ^ (quotientScale c).toNat := by
        rw [← pow_add, Nat.sub_add_cancel hlt.le]
      rw [hpow]
      push_cast
      field_simp
      rfl

/-! ## The token bill -/

/-- The two programs on one side of the bill: both refuse it, or both have the same charge,
which the database keeps with the places of the rates. -/
inductive Bills : Option ℕ → Bool × Numeric → Prop
  | refused {b : Numeric} : Bills none (false, b)
  | priced {c : ℕ} {b : Numeric} (value : b.value = (c : ℚ) / costUnit)
      (places : b.scale ≤ costDigits) (scale : c ≠ 0 → b.scale = costDigits) :
      Bills (some c) (true, b)

/-- The rates of a set that both programs read. -/
def Readable (rates : RateField → Option Text) : Prop :=
  ∀ f t, rates f = some t → validAmount t = true

abbrev inUnits (rates : RateField → Option Text) : RateSet := fun f => unitsOf (rates f)

variable {rates : RateField → Option Text}

theorem isSome_inUnits (h : Readable rates) (f : RateField) :
    (inUnits rates f).isSome = (rates f).isSome := by
  cases hf : rates f with
  | none => simp [inUnits, unitsOf, hf]
  | some t =>
    obtain ⟨n, hn, -⟩ := unitsOf_some (h f t hf)
    simp [inUnits, hf, hn]

theorem priceFirstRate_eq (h : Readable rates) (chain : List RateField) :
    priceFirstRate rates chain
      = (RateSet.firstRate (inUnits rates) chain).map fun n =>
        ⟨(n : ℚ) / costUnit, costDigits⟩ := by
  induction chain with
  | nil => rfl
  | cons f chain ih =>
    cases hf : rates f with
    | none =>
      have hu : inUnits rates f = none := by simp [inUnits, unitsOf, hf]
      simpa [priceFirstRate, RateSet.firstRate, findSome?_cons, hf, hu] using ih
    | some t =>
      obtain ⟨n, hn, hnum⟩ := unitsOf_some (h f t hf)
      have hu : inUnits rates f = some n := by simp only [inUnits, hf, hn]
      have hround : Numeric.roundTo ((n : ℚ) / costUnit) costDigits = (n : ℚ) / costUnit := by
        have := @Numeric.roundTo_of_le n costDigits costDigits le_rfl
        simpa [costUnit] using this
      simp [priceFirstRate, RateSet.firstRate, hf, hu, Numeric.cast, hnum, hround]

variable {bill : Bool × Numeric}

/-- One share keeps the two programs together. -/
theorem Bills.share {rates : RateField → Option Text} (h : Readable rates) {c : Option ℕ}
    (hb : Bills c bill) {share : ℤ × List RateField} (hpos : 0 ≤ share.1) :
    Bills (c.bind fun c => RateSet.addShare (inUnits rates) c share)
      (billShare rates bill share) := by
  have hneg : ¬ share.1 < 0 := Int.not_lt.2 hpos
  rw [billShare, if_neg hneg, priceFirstRate_eq h]
  cases hb with
  | refused =>
    cases RateSet.firstRate (inUnits rates) share.2 with
    | none | some n => exact .refused
  | @priced c b hvalue hplaces hscale =>
    rw [Option.bind_some, RateSet.addShare, if_neg hneg]
    cases RateSet.firstRate (inUnits rates) share.2 with
    | none =>
      by_cases hzero : share.1 = 0
      · rw [if_pos hzero]
        simpa [hzero] using Bills.priced hvalue hplaces hscale
      · rw [if_neg hzero]
        have hlt : 0 < share.1 := lt_of_le_of_ne hpos (Ne.symm hzero)
        simpa [hlt] using Bills.refused
    | some n =>
      have htokens : ((share.1.toNat : ℕ) : ℚ) = share.1 := by
        exact_mod_cast congrArg (Int.cast : ℤ → ℚ) (Int.toNat_of_nonneg hpos)
      have hscaled : (b.add ((Numeric.ofInt share.1).mul ⟨(n : ℚ) / costUnit, costDigits⟩)).scale
          = costDigits := by
        simpa [Numeric.add, Numeric.mul, Numeric.ofInt] using hplaces
      have hsum : (b.add ((Numeric.ofInt share.1).mul ⟨(n : ℚ) / costUnit, costDigits⟩)).value
          = ((c + share.1.toNat * n : ℕ) : ℚ) / costUnit := by
        simp only [Numeric.add, Numeric.mul, Numeric.ofInt, hvalue]
        push_cast
        rw [htokens]
        ring
      by_cases hzero : share.1 = 0
      · rw [if_pos hzero]
        refine .priced ?_ hscaled.le fun _ => hscaled
        simpa [hzero] using hsum
      · rw [if_neg hzero]
        exact .priced hsum hscaled.le fun _ => hscaled

theorem Bills.shares {rates : RateField → Option Text} (h : Readable rates)
    {shares : List (ℤ × List RateField)} (hpos : ∀ share ∈ shares, 0 ≤ share.1) {c : Option ℕ}
    (hb : Bills c bill) :
    Bills (c.bind fun c => shares.foldlM (RateSet.addShare (inUnits rates)) c)
      (shares.foldl (billShare rates) bill) := by
  induction shares generalizing c bill with
  | nil => simpa using hb
  | cons share shares ih =>
    have hstep := hb.share h (hpos share mem_cons_self)
    have hrest := ih (fun sh hsh => hpos sh (mem_cons_of_mem _ hsh)) hstep
    rw [foldl_cons]
    simpa only [foldlM_cons, Option.bind_assoc, Option.bind_eq_bind] using hrest

theorem billShares_eq (h : Readable rates) {shares : List (ℤ × List RateField)}
    (hpos : ∀ share ∈ shares, 0 ≤ share.1) :
    Bills (RateSet.charge (inUnits rates) shares) (billShares rates shares) :=
  Bills.shares h hpos (c := some 0) (.priced (by simp [Numeric.ofInt]) (Nat.zero_le _)
    fun hne => absurd rfl hne)

/-! ## The rates of a tier -/

theorem mem_of_foldl_higherTier {tiers : List PriceTier} {highest : Option PriceTier}
    {tier : PriceTier} (h : tiers.foldl higherTier highest = some tier) :
    highest = some tier ∨ tier ∈ tiers := by
  induction tiers generalizing highest with
  | nil => exact .inl h
  | cons next tiers ih =>
    rcases ih h with hnext | hmem
    · unfold higherTier at hnext
      split at hnext
      · exact .inr (Option.some.inj hnext ▸ mem_cons_self)
      · exact .inl hnext
    · exact .inr (mem_cons_of_mem _ hmem)

variable {loadLocation : Text → Option Location} {p : Price}

theorem readable_selectedRates (h : p.Accepted loadLocation) (input : Option ℤ) :
    Readable (selectedRates p input) := by
  unfold selectedRates
  split
  · exact h.rates
  · rename_i input
    cases hsel :
      (p.tiers.filter fun tier => tier.aboveInputTokens < input).foldl higherTier none with
    | none => exact h.rates
    | some tier =>
      rcases mem_of_foldl_higherTier hsel with hnone | hmem
      · simp at hnone
      · exact fun f t ht => (h.tierRates tier (mem_filter.1 hmem).1 f).2 t ht

theorem foldl_tiers_eq (base : RateField → Option Text) (input : ℤ) {tiers : List PriceTier}
    (hinc : (tiers.map (·.aboveInputTokens)).Pairwise (· < ·)) {highest : Option PriceTier}
    (hbelow : ∀ h, highest = some h → ∀ t ∈ tiers, h.aboveInputTokens < t.aboveInputTokens) :
    (tiers.map tierOf).foldl
        (fun selected tier => if tier.above < input then tier.rates else selected)
        (inUnits (highest.elim base (·.rates)))
      = inUnits (((tiers.filter fun tier => tier.aboveInputTokens < input).foldl higherTier
          highest).elim base (·.rates)) := by
  induction tiers generalizing highest with
  | nil => rfl
  | cons tier tiers ih =>
    rw [map_cons, pairwise_cons] at hinc
    rw [map_cons, foldl_cons]
    have hrest : ∀ t ∈ tiers, tier.aboveInputTokens < t.aboveInputTokens :=
      fun t ht => hinc.1 _ (mem_map_of_mem ht)
    by_cases hlt : tier.aboveInputTokens < input
    · have hhigher : higherTier highest tier = some tier := by
        refine if_pos ?_
        cases highest with
        | none => rfl
        | some h => simpa using hbelow h rfl tier mem_cons_self
      rw [filter_cons_of_pos (by simpa using hlt), foldl_cons, hhigher,
        ← ih hinc.2 fun h hh t ht => Option.some.inj hh ▸ hrest t ht]
      rw [if_pos (show (tierOf tier).above < input from hlt)]
      rfl
    · rw [filter_cons_of_neg (by simpa using hlt),
        ← ih hinc.2 fun h hh t ht => hbelow h hh t (mem_cons_of_mem _ ht)]
      rw [if_neg (show ¬ (tierOf tier).above < input from hlt)]

theorem selectRates_eq (h : p.Accepted loadLocation) (input : Option ℤ) :
    (ratesOf loadLocation p).selectRates input = inUnits (selectedRates p input) := by
  cases input with
  | none => rfl
  | some input => exact @foldl_tiers_eq p.rates input p.tiers h.increasing none (by simp)

/-! ## Parts of the bill -/

/-- The two programs on a bill: both refuse it, or both have the same total, which the
gateway counts in units of 10⁻¹⁸. -/
inductive Tallies : Option ℕ → Part → Prop
  | refused {x : ℚ} : Tallies none (false, x)
  | priced (n : ℕ) : Tallies (some n) (true, (n : ℚ) / 10 ^ 18)

theorem Tallies.of_eq {n : ℕ} {x : ℚ} (h : x = (n : ℚ) / 10 ^ 18) : Tallies (some n) (true, x) :=
  h ▸ .priced n

theorem Tallies.add {a b : Option ℕ} {x y : Part} (hx : Tallies a x) (hy : Tallies b y) :
    Tallies (a.bind fun i => b.map (i + ·)) (x.1 && y.1, x.2 + y.2) := by
  cases hx with
  | refused => exact .refused
  | priced m =>
    cases hy with
    | refused => exact .refused
    | priced n =>
      refine .of_eq ?_
      push_cast
      ring

theorem Bills.tally {c : Option ℕ} (h : Bills c bill) :
    Tallies (c.map quotient) (bill.1, (bill.2.div (.ofInt 1000000)).value) := by
  cases h with
  | refused => exact .refused
  | priced hvalue _ hscale => exact .of_eq (div_million hvalue hscale)

theorem Bills.tally_of {c : Option ℕ} (h : Bills c bill) (head : Bool) :
    Tallies (if head then c.map quotient else none)
      (head && bill.1, (bill.2.div (.ofInt 1000000)).value) := by
  cases head with
  | false => exact .refused
  | true => exact h.tally

theorem Bills.zero : Bills (some 0) (true, .ofInt 0) :=
  .priced (by simp [Numeric.ofInt]) (Nat.zero_le _) fun hne => absurd rfl hne

variable {u : AttemptUsage}

theorem tally_input (h : Readable rates) (hu : u.Consistent) :
    Tallies (RateSet.inputTotal (inUnits rates) u)
      ((inputBill rates u).1, ((inputBill rates u).2.div (.ofInt 1000000)).value) := by
  unfold RateSet.inputTotal inputBill
  cases u.tokens .input with
  | none =>
    cases u.inputSharesAbsent with
    | false => exact .refused
    | true => exact Bills.zero.tally
  | some n =>
    simp only [RateSet.inputHead, isSome_inUnits h, hu.inputShares_eq]
    exact (billShares_eq h hu.input).tally_of _

theorem tally_output (h : Readable rates) (hu : u.Consistent) :
    Tallies (RateSet.outputTotal (inUnits rates) u)
      ((outputBill rates u).1, ((outputBill rates u).2.div (.ofInt 1000000)).value) := by
  unfold RateSet.outputTotal outputBill
  cases u.tokens .output with
  | none =>
    cases (u.tokens .audioOutput).isNone with
    | false => exact .refused
    | true =>
      cases (u.tokens .imageOutput).isNone with
      | false => exact .refused
      | true => exact Bills.zero.tally
  | some n =>
    simp only [RateSet.outputHead, isSome_inUnits h, hu.outputShares_eq]
    exact (billShares_eq h hu.output).tally_of _

/-- The media units of an attempt as events carry them: decimals that are not below zero. -/
def AttemptUsage.MediaAccepted (u : AttemptUsage) : Prop :=
  ∀ t, u.mediaUnits = some t → parseWireDecimal t = some false

/-- No media units with a minus sign. -/
def AttemptUsage.Unsigned (u : AttemptUsage) : Prop :=
  ∀ t, u.mediaUnits = some t → t.head? ≠ some '-'

section

variable (h : p.Accepted loadLocation)

include h

theorem tally_media (hu : u.MediaAccepted) (hsign : u.Unsigned) :
    Tallies ((ratesOf loadLocation p).mediaTotal u) (mediaPart p u) := by
  unfold PriceRates.mediaTotal mediaPart
  cases hm : u.mediaUnits with
  | none => exact .of_eq (by simp)
  | some t =>
    obtain ⟨n, hn, hnum⟩ := media_of_wire (hu t hm) (hsign t hm)
    cases hp : p.unitPrice with
    | none => simpa [ratesOf, hp, unitsOf] using Tallies.refused
    | some unit =>
      obtain ⟨m, hmu, hmnum⟩ := unitsOf_some (h.unitPrice unit hp)
      have htotal : ((ratesOf loadLocation p).unit.bind fun unit =>
          (scaledDecimal t mediaDigits).bind fun units => some (units * unit)) = some (n * m) := by
        simp [ratesOf, hp, hmu, hn]
      simp only [Option.bind_eq_bind, Option.pure_def, htotal]
      refine .of_eq ?_
      rw [hnum, hmnum, mediaDigits, costUnit, costDigits]
      push_cast
      ring

theorem requestPart_eq (u : AttemptUsage) (successful : Bool) : requestPart p u successful
      = ((ratesOf loadLocation p).requestFee u successful : ℚ) / 10 ^ 18 := by
  unfold requestPart PriceRates.requestFee
  cases hp : p.perRequest with
  | none => simp [ratesOf, hp, unitsOf]
  | some fee =>
    obtain ⟨n, hn, hnum⟩ := unitsOf_some (h.perRequest fee hp)
    have hunits : (ratesOf loadLocation p).perRequest = some n := by rw [ratesOf, hp, hn]
    dsimp only
    split
    · rename_i hfee
      have hinv : ((u.invocations.toNat : ℕ) : ℚ) = u.invocations := by
        exact_mod_cast congrArg (Int.cast : ℤ → ℚ) (Int.toNat_of_nonneg hfee.2.le)
      rw [hunits, hnum, Option.getD_some, perMillion, costUnit, costDigits]
      push_cast
      rw [hinv]
      ring
    · simp

omit h in
theorem Tallies.fee {a : Option ℕ} {x : Part} (hx : Tallies a x) {fee : ℕ} {y : ℚ}
    (hy : y = (fee : ℚ) / 10 ^ 18) : Tallies (a.map (· + fee)) (x.1, x.2 + y) := by
  cases hx with
  | refused => exact .refused
  | priced n =>
    refine .of_eq ?_
    rw [hy]
    push_cast
    ring

/-- One tool keeps the two programs together. -/
theorem Tallies.tool {total : Option ℕ} {bill : Part} (hb : Tallies total bill) (call : Text × ℤ) :
    Tallies (total.bind fun total => (ratesOf loadLocation p).addTool total call)
      (toolPart p bill call) := by
  unfold toolPart
  by_cases hpos : 0 < call.2
  · rw [if_pos hpos]
    cases hlookup : p.toolCalls.lookup call.1 with
    | none =>
      have hnone : (ratesOf loadLocation p).tools call.1 = none := by
        simp [ratesOf, hlookup, unitsOf]
      cases hb with
      | refused => exact .refused
      | priced n =>
        rw [Option.bind_some, PriceRates.addTool, if_neg (Int.not_le.2 hpos), hnone]
        exact .refused
    | some fee =>
      have hmem : (call.1, fee) ∈ p.toolCalls := by
        obtain ⟨l₁, l₂, hl, -⟩ := lookup_eq_some_iff.1 hlookup
        exact hl ▸ mem_append_right _ mem_cons_self
      obtain ⟨m, hm, hnum⟩ := unitsOf_some (h.toolCalls _ hmem)
      have hsome : (ratesOf loadLocation p).tools call.1 = some m := by
        rw [← hm, ← hlookup, ratesOf]
      cases hb with
      | refused => exact .refused
      | priced n =>
        rw [Option.bind_some, PriceRates.addTool, if_neg (Int.not_le.2 hpos), hsome]
        refine .of_eq ?_
        have hcount : ((call.2.toNat : ℕ) : ℚ) = call.2 := by
          exact_mod_cast congrArg (Int.cast : ℤ → ℚ) (Int.toNat_of_nonneg hpos.le)
        rw [hnum, perMillion, costUnit, costDigits]
        push_cast
        rw [hcount]
        ring
  · rw [if_neg hpos]
    cases hb with
    | refused => exact .refused
    | priced n =>
      rw [Option.bind_some, PriceRates.addTool, if_pos (Int.not_lt.1 hpos)]
      exact .priced n

theorem Tallies.tools (calls : List (Text × ℤ)) {total : Option ℕ}
    {bill : Part} (hb : Tallies total bill) :
    Tallies (total.bind fun total => calls.foldlM (ratesOf loadLocation p).addTool total)
      (calls.foldl (toolPart p) bill) := by
  induction calls generalizing total bill with
  | nil => simpa using hb
  | cons call calls ih =>
    rw [foldl_cons]
    simpa only [foldlM_cons, Option.bind_assoc, Option.bind_eq_bind] using ih (hb.tool h call)

/-! ## Windows -/

omit h in
theorem isoDay_eq (l : LocalTime) : l.isoDay = isoDow l := by
  have : ∀ day : Fin 7, (day.val + 6) % 7 + 1 = if day.val = 0 then 7 else day.val := by decide
  exact this l.weekday

omit h in
theorem clockMinutes_eq {t : Text} {b : Bool} {n : ℕ} (h : windowMinutes t b = some n) :
    clockMinutes t = n := by
  have hcolon : ∀ c : Char, c.isDigit = true → c ≠ ':' := by
    rintro c hc rfl
    simp [Char.isDigit] at hc
  unfold windowMinutes at h
  split at h
  · rename_i a b' c d
    split at h
    · rename_i hdigits
      obtain ⟨ha, hb, hc, hd⟩ := hdigits
      have hclock : clockMinutes [a, b', ':', c, d] = value [a, b'] * 60 + value [c, d] := by
        simp [clockMinutes, hcolon a ha, hcolon b' hb, hcolon c hc, hcolon d hd]
      dsimp only at h
      split at h
      · rename_i hend
        rw [hclock, hend.2.1, hend.2.2]
        exact Option.some.inj h
      · split at h
        · simp at h
        · rw [hclock]
          exact Option.some.inj h
    · simp at h
  · simp at h

theorem windowPart_eq (at_ : ℤ) :
    windowPart loadLocation p at_ = ratio ((ratesOf loadLocation p).windowAt at_) := by
  unfold windowPart PriceRates.windowAt
  cases hw : p.windows with
  | none => simp [ratesOf, hw, ratio]
  | some w =>
    obtain ⟨location, hloc⟩ := Option.isSome_iff_exists.1 (h.zone w hw)
    have hlocation : (ratesOf loadLocation p).location = some location := by
      simp [ratesOf, hw, hloc]
    have hwindows : (ratesOf loadLocation p).windows = w.periods.map windowOf := by
      simp [ratesOf, hw]
    simp only [hloc, hlocation, hwindows, find?_map, Option.map_map]
    -- both look for the first period that holds, and read its bounds alike
    have hfind : (w.periods.find? fun period =>
          decide (isoDow (location at_) ∈ period.days ∧
            clockMinutes period.start ≤ (location at_).hour * 60 + (location at_).minute ∧
            (location at_).hour * 60 + (location at_).minute < clockMinutes period.stop))
        = w.periods.find? ((fun v => v.holds (location at_)) ∘ windowOf) := by
      refine find?_congr fun period hmem => ?_
      have hp := (h.periods w hw).2.1 period hmem
      obtain ⟨a, ha⟩ := Option.isSome_iff_exists.1 hp.start
      obtain ⟨b, hb⟩ := Option.isSome_iff_exists.1 hp.stop
      simp [ParsedWindow.holds, windowOf, ha, hb, clockMinutes_eq ha, clockMinutes_eq hb,
        isoDay_eq, LocalTime.minutes]
    rw [hfind]
    cases hsome : w.periods.find? ((fun v => v.holds (location at_)) ∘ windowOf) with
    | none => rfl
    | some period =>
      have hp := (h.periods w hw).2.1 period (mem_of_find?_eq_some hsome)
      obtain ⟨n, hn, hnum⟩ := amount_of_valid hp.multiplier
      simp [ratio, windowOf, hn, hnum]

/-! ## One number -/

omit h in
theorem ratio_eq (m : Option ℕ) :
    ratio m = (m.toList.prod : ℚ) / (costUnit : ℚ) ^ m.toList.length := by
  cases m <;> simp [ratio]

omit h in
theorem multipliers_eq (r : PriceRates) (u : AttemptUsage) (at_ : ℤ) (discount : Option ℕ) :
    ratio (r.windowAt at_) * ratio (if u.batch then r.batch else none) * ratio discount
      = ((r.multipliers u at_ discount).prod : ℚ)
        / (costUnit : ℚ) ^ (r.multipliers u at_ discount).length := by
  simp only [ratio_eq, PriceRates.multipliers, prod_append, length_append, Nat.cast_mul, pow_add]
  field_simp

theorem batchPart_eq (u : AttemptUsage) :
    batchPart p u = (!(u.batch && (ratesOf loadLocation p).batch.isNone),
      ratio (if u.batch then (ratesOf loadLocation p).batch else none)) := by
  unfold batchPart
  cases u.batch with
  | false => rfl
  | true =>
    cases hp : p.batchMultiplier with
    | none => simp [ratesOf, hp, unitsOf, ratio]
    | some multiplier =>
      obtain ⟨n, hn, hnum⟩ := unitsOf_some (h.batchMultiplier multiplier hp)
      simp [ratesOf, hp, hn, hnum, ratio]

end

/-- The bill before multipliers. -/
def PriceRates.total (r : PriceRates) (u : AttemptUsage) (successful : Bool) : Option ℕ :=
  let rates := r.selectRates (u.tokens .input)
  (((((rates.inputTotal u).bind fun i => (rates.outputTotal u).map (i + ·)).bind fun t =>
    (r.mediaTotal u).map (t + ·)).map (· + r.requestFee u successful))).bind fun t =>
      u.toolCalls.foldlM r.addTool t

variable (r : PriceRates)

theorem PriceRates.cost_plain (hret : u.retainedValues = false) (at_ : ℤ) (successful : Bool)
    (discount : Option ℕ) :
    r.cost u at_ successful discount
      = if u.complete then
          (r.total u successful).bind fun t => r.finish t u at_ discount
        else none := by
  have hcount : u.invocationCount = none := by
    simp only [AttemptUsage.retainedValues, Bool.or_eq_false_iff] at hret
    simpa using hret.1.1.1.1
  have hinv : 0 ≤ u.invocations := by
    rw [AttemptUsage.invocations, hcount]
    cases u.deferred <;> decide
  rw [PriceRates.cost, PriceRates.total]
  cases hc : u.complete with
  | false => rfl
  | true =>
    simp only [hcount, hret, hinv, guard, Option.any_none, Bool.false_eq_true, false_and,
      and_false, not_false_eq_true, if_true, if_false, Option.bind_eq_bind, Option.bind_assoc,
      Option.pure_def, Option.bind_some, Option.bind_map, Function.comp_def]

theorem tally_charge (h : p.Accepted loadLocation) (hu : u.Consistent)
    (hret : u.retainedValues = false) (hmedia : u.MediaAccepted) (hsign : u.Unsigned)
    (successful : Bool) :
    Tallies ((ratesOf loadLocation p).total u successful) (chargePart p u successful) := by
  simp only [AttemptUsage.retainedValues, Bool.or_eq_false_iff, Option.isSome_eq_false_iff,
    Option.isNone_iff_eq_none, decide_eq_false_iff_not, not_not] at hret
  obtain ⟨⟨⟨⟨-, htraining⟩, hstorage⟩, hcache⟩, hsessions⟩ := hret
  have hrates := readable_selectedRates h (u.tokens .input)
  rw [PriceRates.total, selectRates_eq h, chargePart]
  simp only [htraining, hstorage, hcache, hsessions, Option.map_none, retainedPart, foldl_nil]
  exact ((((tally_input hrates hu).add (tally_output hrates hu)).add
    (tally_media h hmedia hsign)).fee (requestPart_eq h u successful)).tools h _

theorem PriceRates.finish_eq (total : ℕ) (u : AttemptUsage) (at_ : ℤ) (discount : Option ℕ) :
    r.finish total u at_ discount
      = if u.batch && r.batch.isNone then none
        else some (clampCost (Rounding.halfUp (total * (r.multipliers u at_ discount).prod)
          (perMillion * costUnit ^ (r.multipliers u at_ discount).length))) := by
  by_cases hbatch : u.batch = true ∧ r.batch = none
  · rw [PriceRates.finish, if_pos hbatch, if_pos (by simp [hbatch])]
  · rw [if_neg (by simpa using hbatch)]
    obtain ⟨c, hc⟩ : ∃ c, r.finish total u at_ discount = some c := by
      rw [PriceRates.finish, if_neg hbatch]
      split
      · exact ⟨_, rfl⟩
      · exact ⟨_, rfl⟩
    rw [hc, PriceRates.finish_eq_some hc]

theorem roundTo_total (total : ℕ) (u : AttemptUsage) (at_ : ℤ) (discount : Option ℕ) :
    Numeric.roundTo ((total : ℚ) / 10 ^ 18 *
        (ratio (r.windowAt at_) * ratio (if u.batch then r.batch else none)) * ratio discount) 12
      = (Rounding.halfUp (total * (r.multipliers u at_ discount).prod)
          (perMillion * costUnit ^ (r.multipliers u at_ discount).length) : ℚ) / costUnit := by
  set ms := r.multipliers u at_ discount with hms
  have hunit : ((costUnit : ℕ) : ℚ) = 10 ^ 12 := by
    rw [costUnit, costDigits, Nat.cast_pow, Nat.cast_ofNat]
  have hproduct : (total : ℚ) / 10 ^ 18 *
        (ratio (r.windowAt at_) * ratio (if u.batch then r.batch else none)) * ratio discount
      = ((total * ms.prod : ℕ) : ℚ) / 10 ^ (18 + 12 * ms.length) := by
    rw [mul_assoc, multipliers_eq, ← hms, hunit, pow_add, pow_mul, Nat.cast_mul]
    field_simp
  have hdivisor : 10 ^ (18 + 12 * ms.length - 12) = perMillion * costUnit ^ ms.length := by
    rw [← ten_pow_divisor, costDigits]
    congr 1
    omega
  rw [hproduct, Numeric.roundTo_div _ (by omega), hdivisor, hunit]

def inNumeric (c : Cost) : ℚ := (c.value : ℚ) / costUnit

/-- Without a minus sign in the media units the two programs are one. -/
theorem cost_eq_of_unsigned (h : p.Accepted loadLocation) (hu : u.Consistent)
    (hret : u.retainedValues = false) (hmedia : u.MediaAccepted) (hsign : u.Unsigned)
    {startedAt : ℤ} {successful : Bool} {discount : Option ℕ}
    (hfits : ∀ c, priceUsage loadLocation p u startedAt successful
      (discount.map fun d => (d : ℚ) / costUnit) = some c → c.2 < 10 ^ 12) :
    (p.cost loadLocation u startedAt successful discount).map inNumeric
      = (priceUsage loadLocation p u startedAt successful
          (discount.map fun d => (d : ℚ) / costUnit)).map Prod.snd := by
  have hcount : u.invocationCount = none := by
    simp only [AttemptUsage.retainedValues, Bool.or_eq_false_iff] at hret
    simpa using hret.1.1.1.1
  have htiers : ¬ (u.deferred = true ∧ 1 < u.invocations ∧ p.tiers ≠ []) := by
    rw [AttemptUsage.invocations, hcount]
    cases u.deferred <;> simp
  have hdiscount : (discount.map fun d => (d : ℚ) / costUnit).getD 1 = ratio discount := by
    cases discount <;> rfl
  have htally := tally_charge h hu hret hmedia hsign successful
  rw [Price.cost, parseRates_of_accepted h, Option.bind_some, PriceRates.cost_plain _ hret]
  rw [priceUsage, if_neg htiers] at hfits ⊢
  simp only [windowPart_eq h, batchPart_eq h, hdiscount] at hfits ⊢
  set r := ratesOf loadLocation p
  generalize r.total u successful = total at htally ⊢
  generalize chargePart p u successful = bill at htally hfits ⊢
  cases htally with
  | refused => simp
  | priced n =>
    rw [roundTo_total] at hfits ⊢
    cases hcomplete : u.complete with
    | false => simp
    | true =>
      simp only [Option.bind_some, if_true, PriceRates.finish_eq]
      cases hbatch : u.batch && r.batch.isNone with
      | true => simp
      | false =>
        simp only [hcomplete, hbatch, Bool.not_false, and_self, if_true] at hfits
        simp only [Bool.false_eq_true, if_false, Bool.not_false, and_self, if_true,
          Option.map_some, inNumeric, value_clampCost]
        have hlt := hfits _ rfl
        rw [div_lt_iff₀ (by norm_num [costUnit, costDigits])] at hlt
        rw [min_eq_left]
        have hnat : Rounding.halfUp (n * (r.multipliers u startedAt discount).prod)
            (perMillion * costUnit ^ (r.multipliers u startedAt discount).length)
            < 10 ^ 12 * costUnit := by exact_mod_cast hlt
        have hmax : 10 ^ 12 * costUnit = maxCostUnits + 1 := by decide
        omega

/-- Media units with a sign get no price from the gateway. -/
theorem cost_of_minus (h : p.Accepted loadLocation) (hret : u.retainedValues = false)
    (hsign : ¬ u.Unsigned) (startedAt : ℤ) (successful : Bool) (discount : Option ℕ) :
    p.cost loadLocation u startedAt successful discount = none := by
  obtain ⟨t, ht, hminus⟩ : ∃ t, u.mediaUnits = some t ∧ t.head? = some '-' := by
    simpa [AttemptUsage.Unsigned] using hsign
  have hmedia : (ratesOf loadLocation p).mediaTotal u = none := by
    simp only [PriceRates.mediaTotal, ht, scaledDecimal_minus hminus, Option.bind_eq_bind,
      Option.bind_none, Option.bind_fun_none]
  have htotal : (ratesOf loadLocation p).total u successful = none := by
    simp [PriceRates.total, hmedia]
  rw [Price.cost, parseRates_of_accepted h, Option.bind_some, PriceRates.cost_plain _ hret, htotal]
  simp

/-! ## Usage that a price covers -/

/-- Every share of a side that is not empty has a rate in its chain. -/
def SharesRated (rates : RateField → Option Text) (shares : List (ℤ × List RateField)) : Prop :=
  ∀ share ∈ shares, 0 < share.1 → ∃ f ∈ share.2, (rates f).isSome = true

/-- The input has rates, or there is none. -/
def InputRated (rates : RateField → Option Text) (u : AttemptUsage) : Prop :=
  match u.tokens .input with
  | none => u.inputSharesAbsent = true
  | some _ => (∃ f ∈ [.input, .audioInput, .imageInput], (rates f).isSome = true) ∧
    SharesRated rates u.exactInputShares

/-- The output has rates, or there is none. -/
def OutputRated (rates : RateField → Option Text) (u : AttemptUsage) : Prop :=
  match u.tokens .output with
  | none => u.tokens .audioOutput = none ∧ u.tokens .imageOutput = none
  | some _ => (∃ f ∈ [.output, .audioOutput, .imageOutput], (rates f).isSome = true) ∧
    SharesRated rates u.exactOutputShares

/-- The price has a rate for every token, a fee for every other quantity and a multiplier for a
batch, and the usage is complete. -/
structure Price.Covers (p : Price) (u : AttemptUsage) : Prop where
  input : InputRated (selectedRates p (u.tokens .input)) u
  output : OutputRated (selectedRates p (u.tokens .input)) u
  media : u.mediaUnits.isSome = true → p.unitPrice.isSome = true
  tools : ∀ call ∈ u.toolCalls, 0 < call.2 → (p.toolCalls.lookup call.1).isSome = true
  batch : u.batch = true → p.batchMultiplier.isSome = true
  complete : u.complete = true

theorem billShare_fst {share : ℤ × List RateField} (hpos : 0 ≤ share.1) :
    (billShare rates bill share).1 = true ↔
      bill.1 = true ∧ (0 < share.1 → ∃ f ∈ share.2, (rates f).isSome = true) := by
  have hrate : (priceFirstRate rates share.2).isSome = true ↔
      ∃ f ∈ share.2, (rates f).isSome = true := by
    rw [priceFirstRate, Option.isSome_map, findSome?_isSome_iff]
  rw [billShare, if_neg (Int.not_lt.2 hpos), ← hrate]
  cases priceFirstRate rates share.2 <;> simp

theorem billShares_fst {shares : List (ℤ × List RateField)} (hpos : ∀ share ∈ shares, 0 ≤ share.1) :
    (billShares rates shares).1 = true ↔ SharesRated rates shares := by
  have hfold (bill : Bool × Numeric) : (shares.foldl (billShare rates) bill).1 = true ↔
      bill.1 = true ∧ SharesRated rates shares := by
    induction shares generalizing bill with
    | nil => simp [SharesRated]
    | cons share shares ih =>
      rw [forall_mem_cons] at hpos
      rw [foldl_cons, ih hpos.2, billShare_fst hpos.1, and_assoc]
      simp only [SharesRated, forall_mem_cons]
  exact (hfold (true, .ofInt 0)).trans (and_iff_right rfl)

theorem inputBill_fst (hu : u.Consistent) : (inputBill rates u).1 = true ↔ InputRated rates u := by
  unfold inputBill InputRated
  cases u.tokens .input with
  | none => rfl
  | some n => simp [billShares_fst hu.input, or_assoc]

theorem outputBill_fst (hu : u.Consistent) :
    (outputBill rates u).1 = true ↔ OutputRated rates u := by
  unfold outputBill OutputRated
  cases u.tokens .output with
  | none => simp
  | some n => simp [billShares_fst hu.output, or_assoc]

theorem foldl_toolPart_fst (calls : List (Text × ℤ)) (part : Part) :
    (calls.foldl (toolPart p) part).1 = true ↔ part.1 = true ∧
      ∀ call ∈ calls, 0 < call.2 → (p.toolCalls.lookup call.1).isSome = true := by
  induction calls generalizing part with
  | nil => simp
  | cons call calls ih =>
    rw [foldl_cons, ih, forall_mem_cons, ← and_assoc]
    refine and_congr_left' ?_
    unfold toolPart
    by_cases hpos : 0 < call.2
    · cases p.toolCalls.lookup call.1 <;> simp [hpos]
    · simp [hpos]

/-- The database prices exactly the usage that the price covers. -/
theorem priceUsage_eq_none (hu : u.Consistent) (hret : u.retainedValues = false)
    (zone : Text → Option Location) (startedAt : ℤ) (successful : Bool) (discount : Option ℚ) :
    priceUsage zone p u startedAt successful discount = none ↔ ¬p.Covers u := by
  simp only [AttemptUsage.retainedValues, Bool.or_eq_false_iff, Option.isSome_eq_false_iff,
    Option.isNone_iff_eq_none, decide_eq_false_iff_not, not_not] at hret
  obtain ⟨⟨⟨⟨hcount, htraining⟩, hstorage⟩, hcache⟩, hsessions⟩ := hret
  have htiers : ¬ (u.deferred = true ∧ 1 < u.invocations ∧ p.tiers ≠ []) := by
    rw [AttemptUsage.invocations, hcount]
    cases u.deferred <;> simp
  have hmedia : (mediaPart p u).1 = true ↔
      (u.mediaUnits.isSome = true → p.unitPrice.isSome = true) := by
    unfold mediaPart
    cases u.mediaUnits <;> cases p.unitPrice <;> simp
  have hbatch : (batchPart p u).1 = true ↔ (u.batch = true → p.batchMultiplier.isSome = true) := by
    unfold batchPart
    cases u.batch <;> cases p.batchMultiplier <;> simp
  have hcharge : (chargePart p u successful).1 = true ∧ (batchPart p u).1 = true ∧
      u.complete = true ↔ p.Covers u := by
    simp only [chargePart, htraining, hstorage, hcache, hsessions, Option.map_none, retainedPart,
      foldl_nil, foldl_toolPart_fst, Bool.and_eq_true, inputBill_fst hu, outputBill_fst hu,
      hmedia, hbatch]
    exact ⟨fun ⟨⟨⟨⟨hi, ho⟩, hm⟩, ht⟩, hb, hc⟩ => ⟨hi, ho, hm, ht, hb, hc⟩,
      fun h => ⟨⟨⟨⟨h.input, h.output⟩, h.media⟩, h.tools⟩, h.batch, h.complete⟩⟩
  rw [priceUsage, if_neg htiers, ite_eq_right_iff, ← hcharge]
  simp

/-- Over a price that is accepted and usage whose quantities are valid, the gateway has a
price exactly when the database has one, and then the same, unless media units are spelled with a
minus sign and the price covers the usage. -/
theorem cost_eq_price_usage_iff (loadLocation : Text → Option Location) (p : Price)
    (h : p.Accepted loadLocation) (u : AttemptUsage) (hu : u.Consistent)
    (hret : u.retainedValues = false) (hmedia : u.MediaAccepted) (startedAt : ℤ)
    (successful : Bool) (discount : Option ℕ)
    (hfits : ∀ c, priceUsage loadLocation p u startedAt successful
      (discount.map fun d => (d : ℚ) / costUnit) = some c → c.2 < 10 ^ 12) :
    (p.cost loadLocation u startedAt successful discount).map inNumeric
        = (priceUsage loadLocation p u startedAt successful
            (discount.map fun d => (d : ℚ) / costUnit)).map Prod.snd ↔
      u.Unsigned ∨ ¬p.Covers u := by
  by_cases hsign : u.Unsigned
  · exact iff_of_true (cost_eq_of_unsigned h hu hret hmedia hsign hfits) (.inl hsign)
  · rw [cost_of_minus h hret hsign, Option.map_none, eq_comm, Option.map_eq_none_iff]
    exact (priceUsage_eq_none hu hret ..).trans (or_iff_right hsign).symm

/-- A price of half a dollar for an image. -/
def imagePrice : Price where
  rates _ := none
  unitPrice := some "0.5".toList
  perRequest := none
  batchMultiplier := none
  toolCalls := []
  tiers := []
  windows := none
  trainingPerMillion := none
  storagePerGibDay := none
  cacheStoragePerMillionTokenHour := none
  containerPerSession := []

/-- Usage of images alone. -/
def imageUsage (units : Text) : AttemptUsage where
  tokens _ := none
  mediaUnits := some units
  toolCalls := []
  batch := false
  complete := true
  deferred := false
  invocationCount := none
  trainingTokens := none
  storageByteSeconds := none
  cacheTokenSeconds := none
  containerSessions := []

theorem imagePrice_accepted : imagePrice.Accepted fun _ => none := by
  constructor <;> simp [imagePrice]
  decide

theorem imageUsage_consistent (units : Text) : (imageUsage units).Consistent where
  tokens := by simp [imageUsage]
  input := by simp [AttemptUsage.exactInputShares, AttemptUsage.count, imageUsage]
  output := by simp [AttemptUsage.exactOutputShares, AttemptUsage.count, imageUsage]

theorem imageUsage_media {units : Text} (h : parseWireDecimal units = some false) :
    (imageUsage units).MediaAccepted := fun _ ht => Option.some.inj ht ▸ h

theorem priceUsage_image (units : Text) :
    priceUsage (fun _ => none) imagePrice (imageUsage units) 0 true none
      = some (Numeric.roundTo (numeric units * numeric "0.5".toList) 12,
          Numeric.roundTo (numeric units * numeric "0.5".toList) 12) := by
  have hzero : ((Numeric.ofInt 0).div (.ofInt 1000000)).value = 0 := by
    norm_num [Numeric.div, Numeric.ofInt, Numeric.roundTo]
  simp [priceUsage, chargePart, inputBill, outputBill, imageUsage, imagePrice, hzero, mediaPart,
    requestPart, retainedPart, batchPart, windowPart, AttemptUsage.inputSharesAbsent]

/-- Two and a half units at half a dollar. -/
theorem cost_eq_price_usage_iff_image :
    priceUsage (fun _ => none) imagePrice (imageUsage "2.5".toList) 0 true none
        = some (5 / 4, 5 / 4) ∧
      (imagePrice.cost (fun _ => none) (imageUsage "2.5".toList) 0 true none).map inNumeric
        = some (5 / 4) := by
  have hprice : priceUsage (fun _ => none) imagePrice (imageUsage "2.5".toList) 0 true none
      = some (5 / 4, 5 / 4) := by
    have hround : Numeric.roundTo (numeric "2.5".toList * numeric "0.5".toList) 12 = 5 / 4 := by
      decide +kernel
    rw [priceUsage_image, hround]
  refine ⟨hprice, ?_⟩
  have hiff := cost_eq_price_usage_iff (fun _ => none) imagePrice imagePrice_accepted
    (imageUsage "2.5".toList) (imageUsage_consistent _) rfl
      (imageUsage_media (by decide)) 0 true none
    (fun c hc => by
      have hc' : (5 / 4, 5 / 4) = c := Option.some.inj (hprice.symm.trans hc)
      rw [← hc']
      norm_num)
  have hunsigned : (imageUsage "2.5".toList).Unsigned := fun t ht => Option.some.inj ht ▸ by decide
  exact (hiff.2 (.inl hunsigned)).trans (congrArg (Option.map Prod.snd) hprice)

/-- Media units of negative zero: accepted, priced by the database, refused by the gateway. -/
theorem negative_zero_unpriced :
    imagePrice.Accepted (fun _ => none) ∧ (imageUsage "-0".toList).Consistent ∧
      (imageUsage "-0".toList).retainedValues = false ∧ (imageUsage "-0".toList).MediaAccepted ∧
      priceUsage (fun _ => none) imagePrice (imageUsage "-0".toList) 0 true none = some (0, 0) ∧
      imagePrice.cost (fun _ => none) (imageUsage "-0".toList) 0 true none = none := by
  refine ⟨imagePrice_accepted, imageUsage_consistent _, rfl, imageUsage_media (by decide), ?_,
    by decide⟩
  have hround : Numeric.roundTo (numeric "-0".toList * numeric "0.5".toList) 12 = 0 := by
    decide +kernel
  rw [priceUsage_image, hround]

end Olp.Pricing
