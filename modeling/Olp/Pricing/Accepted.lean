import Olp.Checked
import Olp.Pricing.Accounting

/-!
# Prices and quantities that validation accepts

What the validation of prices (`ValidAmount`, `normalizeTiers`, `normalizeWindows`) and of
events (`parseWireDecimal`) lets through, and what becomes of it in the two programs that
price usage: `pricing_cost.go` reads an amount as a whole number of 10⁻¹² units, the database
reads it as a numeric, and the two are one number (`amount_of_valid`).  A price that is
accepted always parses (`parseRates_of_accepted`).
-/

namespace Olp.Pricing

open Limits Text List

/-! ## Decimals -/

variable {t : Text}

theorem trimPlus_of_digits (h : ∀ c, t.head? = some c → c.isDigit = true) : trimPlus t = t := by
  unfold trimPlus
  split
  · simp [Char.isDigit] at h
  · rfl

theorem numeric?_of_digits (h : ∀ c, t.head? = some c → c.isDigit = true) :
    numeric? t = decimal? t := by
  unfold numeric?
  split
  · simp [Char.isDigit] at h
  · simp [Char.isDigit] at h
  · rfl

theorem head_of_plainDecimal {whole fraction : Text} (h : plainDecimal t = some (whole, fraction))
    (c : Char) (hc : t.head? = some c) : c.isDigit = true := by
  obtain ⟨hw, hne, -, rfl⟩ := plainDecimal_eq_some h
  cases whole with
  | nil => simp at hne
  | cons d whole =>
    have hd : c = d := by
      unfold join at hc
      split at hc <;> simpa [eq_comm] using hc
    rw [hd]
    exact hw d mem_cons_self

/-- A plain decimal of few enough places, scaled. -/
theorem scaledDecimal_of_plain {whole fraction : Text} (h : plainDecimal t = some (whole, fraction))
    {k : ℕ} (hk : fraction.length ≤ k) :
    ∃ n : ℕ, scaledDecimal t k = some n ∧ decimal? t = some ((n : ℚ) / 10 ^ k) := by
  have hhead := head_of_plainDecimal h
  obtain ⟨hw, hne, hf, hjoin⟩ := plainDecimal_eq_some h
  obtain ⟨htake, hdrop⟩ := @cut_join whole fraction hw
  rw [← hjoin] at htake hdrop
  have hpoint : '.' ∈ t → fraction ≠ [] := by
    rintro hmem rfl
    rw [hjoin] at hmem
    have := hw '.' (by simpa [join] using hmem)
    simp [Char.isDigit] at this
  have hdigits : (whole ++ fraction ++ List.replicate (k - fraction.length) '0').all Char.isDigit
      = true := by
    rw [all_eq_true]
    exact isDigits_append.2 ⟨isDigits_append.2 ⟨hw, hf⟩, isDigits_replicate _⟩
  refine ⟨value (whole ++ fraction ++ List.replicate (k - fraction.length) '0'), ?_, ?_⟩
  · unfold scaledDecimal
    rw [trimPlus_of_digits hhead]
    simp only [htake, hdrop]
    rw [if_neg, if_pos hdigits]
    rintro (hnil | ⟨hmem, hnil⟩ | hlt)
    · exact hne hnil
    · exact hpoint hmem hnil
    · omega
  · have hrat := @rat_fill whole fraction k hk
    have hvalue : (value (whole ++ fraction ++ List.replicate (k - fraction.length) '0') : ℚ)
        = rat whole fraction * 10 ^ k := by
      rw [hrat, append_assoc, value_append]
      congr 2
      rw [length_append, length_replicate, Nat.add_sub_cancel' hk]
    rw [hvalue, decimal?, h]
    simp

/-! ## Prices that validation accepts -/

/-- `ValidAmount`. -/
def validAmount (t : Text) : Bool :=
  let integer := t.takeWhile (· ≠ '.')
  let fraction := (t.dropWhile (· ≠ '.')).drop 1
  1 ≤ integer.length ∧ integer.length ≤ 12 ∧ integer.all Char.isDigit = true ∧
    ('.' ∈ t → 1 ≤ fraction.length ∧ fraction.length ≤ 12 ∧ fraction.all Char.isDigit = true)

theorem amount_of_valid (h : validAmount t = true) :
    ∃ n : ℕ, scaledDecimal t costDigits = some n ∧ numeric t = (n : ℚ) / costUnit := by
  simp only [validAmount, decide_eq_true_eq] at h
  obtain ⟨hne, -, hint, hfrac⟩ := h
  have hnone : '.' ∉ t → (t.dropWhile (· ≠ '.')).drop 1 = [] := by
    intro hmem
    have hnil : t.dropWhile (· ≠ '.') = [] :=
      dropWhile_eq_nil_iff.2 fun c hc => by
        simp only [decide_eq_true_eq]
        rintro rfl
        exact hmem hc
    rw [hnil]
    rfl
  have hdigits : IsDigits ((t.dropWhile (· ≠ '.')).drop 1) := by
    by_cases hmem : '.' ∈ t
    · exact all_eq_true.1 (hfrac hmem).2.2
    · rw [hnone hmem]
      exact isDigits_nil
  have hplain := plainDecimal_cut (length_pos_iff.1 hne) (all_eq_true.1 hint) hdigits
    fun hmem => length_pos_iff.1 (hfrac hmem).1
  have hlen : ((t.dropWhile (· ≠ '.')).drop 1).length ≤ costDigits := by
    by_cases hmem : '.' ∈ t
    · exact (hfrac hmem).2.1
    · rw [hnone hmem]
      decide
  obtain ⟨n, hn, hdec⟩ := scaledDecimal_of_plain hplain hlen
  refine ⟨n, hn, ?_⟩
  rw [numeric, numeric?_of_digits (head_of_plainDecimal hplain), hdec]
  simp [costUnit]

/-- A period of the windows that `normalizeWindows` accepts. -/
structure PricePeriod.Accepted (period : PricePeriod) : Prop where
  start : (windowMinutes period.start false).isSome
  stop : (windowMinutes period.stop true).isSome
  ordered : ∀ a b, windowMinutes period.start false = some a →
    windowMinutes period.stop true = some b → a < b
  multiplier : validAmount period.multiplier = true
  days : period.days ≠ [] ∧ period.days.Nodup ∧ ∀ d ∈ period.days, 1 ≤ d ∧ d ≤ 7

/-- Two periods have no time in common on a day they share. -/
def PricePeriod.Apart (a b : PricePeriod) : Prop :=
  ∀ d ∈ a.days, d ∈ b.days → ∀ s e s' e', windowMinutes a.start false = some s →
    windowMinutes a.stop true = some e → windowMinutes b.start false = some s' →
    windowMinutes b.stop true = some e' → e ≤ s' ∨ e' ≤ s

/-- A price entry that its validation accepts. -/
structure Price.Accepted (loadLocation : Text → Option Location) (p : Price) : Prop where
  rates : ∀ f t, p.rates f = some t → validAmount t = true
  unitPrice : ∀ t, p.unitPrice = some t → validAmount t = true
  perRequest : ∀ t, p.perRequest = some t → validAmount t = true
  batchMultiplier : ∀ t, p.batchMultiplier = some t → validAmount t = true
  training : ∀ t, p.trainingPerMillion = some t → validAmount t = true
  storage : ∀ t, p.storagePerGibDay = some t → validAmount t = true
  cacheStorage : ∀ t, p.cacheStoragePerMillionTokenHour = some t → validAmount t = true
  toolCalls : ∀ call ∈ p.toolCalls, validAmount call.2 = true
  containers : ∀ c ∈ p.containerPerSession,
    validContainerTier c.1 = true ∧ validAmount c.2 = true
  /-- Tiers have strictly increasing positive thresholds and the rates of the entry. -/
  increasing : (p.tiers.map (·.aboveInputTokens)).Pairwise (· < ·)
  positive : ∀ tier ∈ p.tiers, 0 < tier.aboveInputTokens
  tierRates : ∀ tier ∈ p.tiers, ∀ f, (tier.rates f).isSome = (p.rates f).isSome ∧
    ∀ t, tier.rates f = some t → validAmount t = true
  zone : ∀ w, p.windows = some w → (loadLocation w.timeZone).isSome
  periods : ∀ w, p.windows = some w → w.periods ≠ [] ∧
    (∀ period ∈ w.periods, period.Accepted) ∧ w.periods.Pairwise PricePeriod.Apart

/-! ## Parsing accepted prices -/

def unitsOf (t : Option Text) : Option ℕ := t.bind (scaledDecimal · costDigits)

theorem unitsOf_some (h : validAmount t = true) :
    ∃ n : ℕ, unitsOf (some t) = some n ∧ numeric t = (n : ℚ) / costUnit := amount_of_valid h

theorem parseAmount_of_valid {t : Option Text} (h : ∀ x, t = some x → validAmount x = true) :
    parseAmount t = some (unitsOf t) := by
  cases t with
  | none => rfl
  | some x =>
    obtain ⟨n, hn, -⟩ := amount_of_valid (h x rfl)
    simp [parseAmount, unitsOf, hn]

theorem parseRateSet_of_valid {rates : RateField → Option Text}
    (h : ∀ f t, rates f = some t → validAmount t = true) :
    parseRateSet rates = some fun f => unitsOf (rates f) := by
  refine if_pos (all_eq_true.2 fun f _ => ?_)
  rw [parseAmount_of_valid (h f)]
  rfl

/-- What a period that is accepted parses to. -/
def windowOf (period : PricePeriod) : ParsedWindow :=
  ⟨period.days, (windowMinutes period.start false).getD 0, (windowMinutes period.stop true).getD 0,
    (scaledDecimal period.multiplier costDigits).getD 0⟩

theorem parseWindow_of_accepted {period : PricePeriod} (h : period.Accepted) :
    parseWindow period = some (windowOf period) := by
  obtain ⟨s, hs⟩ := Option.isSome_iff_exists.1 h.start
  obtain ⟨e, he⟩ := Option.isSome_iff_exists.1 h.stop
  obtain ⟨n, hn, -⟩ := amount_of_valid h.multiplier
  simp [parseWindow, windowOf, hs, he, hn]

/-- What a tier parses to. -/
def tierOf (tier : PriceTier) : ParsedTier :=
  ⟨tier.aboveInputTokens, fun f => unitsOf (tier.rates f)⟩

/-- What an accepted price parses to. -/
def ratesOf (loadLocation : Text → Option Location) (p : Price) : PriceRates where
  retained := p
  rates f := unitsOf (p.rates f)
  unit := unitsOf p.unitPrice
  perRequest := unitsOf p.perRequest
  batch := unitsOf p.batchMultiplier
  tools tool := unitsOf (p.toolCalls.lookup tool)
  tiers := p.tiers.map tierOf
  location := p.windows.bind fun w => loadLocation w.timeZone
  windows := p.windows.elim [] fun w => w.periods.map windowOf

theorem parseRates_of_accepted {loadLocation : Text → Option Location} {p : Price}
    (h : p.Accepted loadLocation) : parseRates loadLocation p = some (ratesOf loadLocation p) := by
  have hretained : p.retainedValid = true := by
    simp only [Price.retainedValid, parseAmount_of_valid h.training, parseAmount_of_valid h.storage,
      parseAmount_of_valid h.cacheStorage, Option.isSome_some, Bool.true_and, all_eq_true,
      Bool.and_eq_true]
    intro c hc
    obtain ⟨n, hn, -⟩ := amount_of_valid (h.containers c hc).2
    exact ⟨(h.containers c hc).1, by rw [hn]; rfl⟩
  have htools : (p.toolCalls.all fun call => (scaledDecimal call.2 costDigits).isSome) = true := by
    refine all_eq_true.2 fun call hcall => ?_
    obtain ⟨n, hn, -⟩ := amount_of_valid (h.toolCalls call hcall)
    rw [hn]
    rfl
  have htiers : p.tiers.mapM parseTier = some (p.tiers.map tierOf) := by
    refine mapM_eq_map fun tier htier => ?_
    rw [parseTier, parseRateSet_of_valid fun f => (h.tierRates tier htier f).2]
    rfl
  have hwindows : parseWindows loadLocation p.windows
      = some (p.windows.bind fun w => loadLocation w.timeZone,
          p.windows.elim [] fun w => w.periods.map windowOf) := by
    cases hw : p.windows with
    | none => rfl
    | some w =>
      obtain ⟨location, hloc⟩ := Option.isSome_iff_exists.1 (h.zone w hw)
      have hperiods : w.periods.mapM parseWindow = some (w.periods.map windowOf) :=
        mapM_eq_map fun period hmem => parseWindow_of_accepted ((h.periods w hw).2.1 period hmem)
      simp [parseWindows, hloc, hperiods]
  simp only [parseRates, hretained, parseRateSet_of_valid h.rates, parseAmount_of_valid h.unitPrice,
    parseAmount_of_valid h.perRequest, parseAmount_of_valid h.batchMultiplier, htools, htiers,
    hwindows, guard_true, Option.bind_eq_bind, Option.bind_some, Option.pure_def]
  rfl

/-! ## Media units -/

/-- `parseWireDecimal`: whether the media units of an event are below zero; none when they
are malformed. -/
def parseWireDecimal (text : Text) : Option Bool :=
  let negative := text.head? = some '-'
  let digits := if text.head? = some '+' ∨ negative then text.drop 1 else text
  let integer := digits.takeWhile (· ≠ '.')
  let fraction := (digits.dropWhile (· ≠ '.')).drop 1
  if integer = [] ∨ ('.' ∈ digits ∧ fraction = []) then none
  else if 18 < integer.length ∨ 6 < fraction.length then none
  else if (integer ++ fraction).all Char.isDigit then
    some (decide negative && (integer ++ fraction).any (· ≠ '0'))
  else none

theorem plainDecimal_of_wire {d : Text} {b : Bool} (h : parseWireDecimal t = some b)
    (hd : (if t.head? = some '+' ∨ t.head? = some '-' then t.drop 1 else t) = d) :
    ∃ whole fraction, plainDecimal d = some (whole, fraction) ∧ fraction.length ≤ mediaDigits := by
  simp only [parseWireDecimal, hd] at h
  split at h
  · simp at h
  · rename_i hempty
    split at h
    · simp at h
    · rename_i hlong
      split at h
      · rename_i hdigits
        rw [not_or] at hempty hlong
        obtain ⟨hint, hfrac⟩ := isDigits_append.1 (all_eq_true.1 hdigits)
        exact ⟨_, _, plainDecimal_cut hempty.1 hint hfrac fun hmem hnil => hempty.2 ⟨hmem, hnil⟩,
          Nat.not_lt.1 hlong.2⟩
      · simp at h

theorem media_of_wire {b : Bool} (h : parseWireDecimal t = some b) (hsign : t.head? ≠ some '-') :
    ∃ n : ℕ, scaledDecimal t mediaDigits = some n ∧ numeric t = (n : ℚ) / 10 ^ mediaDigits := by
  by_cases hplus : t.head? = some '+'
  · obtain ⟨rest, rfl⟩ : ∃ rest, t = '+' :: rest := by
      cases t with
      | nil => simp at hplus
      | cons c rest => exact ⟨rest, by simpa using hplus⟩
    obtain ⟨whole, fraction, hplain, hlen⟩ := plainDecimal_of_wire h rfl
    obtain ⟨n, hn, hdec⟩ := scaledDecimal_of_plain hplain hlen
    refine ⟨n, ?_, ?_⟩
    · rw [← hn, scaledDecimal, scaledDecimal]
      rw [trimPlus_of_digits (head_of_plainDecimal hplain)]
      rfl
    · rw [numeric, numeric?]
      simp only [head?_cons, true_or, if_true, drop_succ_cons, drop_zero] at hdec
      rw [hdec]
      rfl
  · obtain ⟨whole, fraction, hplain, hlen⟩ :=
      plainDecimal_of_wire h (if_neg (not_or.2 ⟨hplus, hsign⟩))
    obtain ⟨n, hn, hdec⟩ := scaledDecimal_of_plain hplain hlen
    refine ⟨n, hn, ?_⟩
    rw [numeric, numeric?_of_digits (head_of_plainDecimal hplain), hdec]
    rfl

theorem scaledDecimal_minus (h : t.head? = some '-') (k : ℕ) : scaledDecimal t k = none := by
  obtain ⟨rest, rfl⟩ : ∃ rest, t = '-' :: rest := by
    cases t with
    | nil => simp at h
    | cons c rest => exact ⟨rest, by simpa using h⟩
  have htrim : trimPlus ('-' :: rest) = '-' :: rest := rfl
  have htake : ('-' :: rest).takeWhile (· ≠ '.') = '-' :: rest.takeWhile (· ≠ '.') := rfl
  simp only [scaledDecimal, htrim, htake]
  split
  · rfl
  · exact if_neg (by simp [Char.isDigit])

end Olp.Pricing
