import Olp.Limits.Decimal
import Olp.Rounding

/-!
# Prices and usage

`pricing_cost.go`: the rates of a price, parsed into whole numbers of 10⁻¹² units, and the
usage of one attempt.  A price carries a set of rates per million tokens, of which a tier
replaces the whole when the input is long enough, fees by the unit, by the request and by
the tool call, and windows of the week with a multiplier.

Amounts are exact: a rate has at most twelve decimal places, and `scaledDecimal` refuses a
text with more of them instead of rounding it.
-/

namespace Olp.Pricing

open Text

/-! ## Amounts -/

def costDigits : ℕ := 12

def mediaDigits : ℕ := 6

/-- The decimal places of a rate times a token count divided by a million. -/
def quotientDigits : ℕ := costDigits + 6

def costUnit : ℕ := 10 ^ costDigits

def perMillion : ℕ := 1000000

/-- The largest value that `numeric(24,12)` holds. -/
def maxCostUnits : ℕ := 10 ^ 24 - 1

/-- An amount of money in units of 10⁻¹²; the zero value has no number. -/
structure Cost where
  units : Option ℕ
deriving DecidableEq, Repr

/-- The number that `Cmp` compares. -/
def Cost.value (c : Cost) : ℕ := c.units.getD 0

def clampCost (units : ℕ) : Cost :=
  if maxCostUnits < units then ⟨some maxCostUnits⟩ else ⟨some units⟩

theorem value_clampCost (units : ℕ) : (clampCost units).value = min units maxCostUnits := by
  unfold clampCost
  split
  · exact (min_eq_right (Nat.le_of_lt ‹_›)).symm
  · exact (min_eq_left (Nat.not_lt.1 ‹_›)).symm

theorem clampCost_mono {m n : ℕ} (h : m ≤ n) : (clampCost m).value ≤ (clampCost n).value := by
  rw [value_clampCost, value_clampCost]
  exact min_le_min_right _ h

/-- `strings.TrimPrefix(text, "+")`. -/
def trimPlus : Text → Text
  | '+' :: rest => rest
  | text => text

/-- A nonnegative decimal in units of `10 ^ -digits`, none when it has more places. -/
def scaledDecimal (text : Text) (digits : ℕ) : Option ℕ :=
  let text := trimPlus text
  let integer := text.takeWhile (· ≠ '.')
  let fraction := (text.dropWhile (· ≠ '.')).drop 1
  if integer = [] ∨ ('.' ∈ text ∧ fraction = []) ∨ digits < fraction.length then none
  else
    let whole := integer ++ fraction ++ List.replicate (digits - fraction.length) '0'
    if whole.all Char.isDigit then some (value whole) else none

/-! ## Rates -/

/-- The rates per million tokens. -/
inductive RateField
  | input
  | cached
  | cacheWrite
  | cacheWrite5m
  | cacheWrite1h
  | output
  | audioInput
  | cachedAudioInput
  | audioOutput
  | imageInput
  | cachedImageInput
  | imageOutput
deriving DecidableEq, Repr

/-- All of them. -/
def RateField.all : List RateField :=
  [.input, .cached, .cacheWrite, .cacheWrite5m, .cacheWrite1h, .output, .audioInput,
    .cachedAudioInput, .audioOutput, .imageInput, .cachedImageInput, .imageOutput]

/-- `rateSet`: the rates of a price or of one of its tiers. -/
abbrev RateSet := RateField → Option ℕ

/-- The set has a rate an input share could bill at. -/
def RateSet.inputHead (s : RateSet) : Bool :=
  (s .input).isSome || (s .audioInput).isSome || (s .imageInput).isSome

/-- The set has a rate an output share could bill at. -/
def RateSet.outputHead (s : RateSet) : Bool :=
  (s .output).isSome || (s .audioOutput).isSome || (s .imageOutput).isSome

def RateSet.firstRate (s : RateSet) (chain : List RateField) : Option ℕ := chain.findSome? s

def chainText : List RateField := [.input]
def chainCached : List RateField := [.cached, .input]
def chainCachedAudio : List RateField := [.cachedAudioInput, .cached, .input]
def chainCachedImage : List RateField := [.cachedImageInput, .cached, .input]
def chainAudio : List RateField := [.audioInput, .input]
def chainImage : List RateField := [.imageInput, .input]
def chainWrite : List RateField := [.cacheWrite, .input]
def chainWrite5m : List RateField := [.cacheWrite5m, .cacheWrite, .input]
def chainWrite1h : List RateField := [.cacheWrite1h, .cacheWrite, .input]
def chainOutput : List RateField := [.output]
def chainAudioOut : List RateField := [.audioOutput, .output]
def chainImageOut : List RateField := [.imageOutput, .output]

/-! ## Prices -/

/-- `PriceTier`. -/
structure PriceTier where
  aboveInputTokens : ℤ
  rates : RateField → Option Text

/-- One period of the windows of a price, on ISO weekdays. -/
structure PricePeriod where
  days : List ℕ
  start : Text
  stop : Text
  multiplier : Text

/-- `PriceWindows`. -/
structure PriceWindows where
  timeZone : Text
  periods : List PricePeriod

/-- `Price`, without the scope it applies to. -/
structure Price where
  rates : RateField → Option Text
  unitPrice : Option Text
  perRequest : Option Text
  batchMultiplier : Option Text
  toolCalls : List (Text × Text)
  tiers : List PriceTier
  windows : Option PriceWindows
  trainingPerMillion : Option Text
  storagePerGibDay : Option Text
  cacheStoragePerMillionTokenHour : Option Text
  containerPerSession : List (Text × Text)

/-- The local time that a zone gives an instant; Sunday is day 0. -/
structure LocalTime where
  weekday : Fin 7
  hour : ℕ
  minute : ℕ

/-- `time.Location`: local times of instants. -/
abbrev Location := ℤ → LocalTime

structure ParsedTier where
  above : ℤ
  rates : RateSet

structure ParsedWindow where
  days : List ℕ
  start : ℕ
  stop : ℕ
  multiplier : ℕ

/-- `priceRates`. -/
structure PriceRates where
  retained : Price
  rates : RateSet
  unit : Option ℕ
  perRequest : Option ℕ
  batch : Option ℕ
  tools : Text → Option ℕ
  tiers : List ParsedTier
  location : Option Location
  windows : List ParsedWindow

/-! ## Parsing -/

/-- An amount that is absent, or one that parses. -/
def parseAmount (text : Option Text) : Option (Option ℕ) :=
  match text with
  | none => some none
  | some text => (scaledDecimal text costDigits).map some

/-- `parseRateSet`. -/
def parseRateSet (rates : RateField → Option Text) : Option RateSet :=
  if RateField.all.all fun f => (parseAmount (rates f)).isSome then
    some fun f => (rates f).bind (scaledDecimal · costDigits)
  else none

/-- `containerTier`: `^[1-9][0-9]{0,4}g$`. -/
def validContainerTier (tier : Text) : Bool :=
  match tier with
  | first :: rest =>
    first.isDigit ∧ first ≠ '0' ∧ rest.length ≤ 5 ∧ rest.getLast? = some 'g' ∧
      rest.dropLast.all Char.isDigit
  | [] => false

/-- `WindowMinutes`. -/
def windowMinutes (text : Text) (allowEndOfDay : Bool) : Option ℕ :=
  match text with
  | [a, b, ':', c, d] =>
    if a.isDigit ∧ b.isDigit ∧ c.isDigit ∧ d.isDigit then
      let hours := value [a, b]
      let minutes := value [c, d]
      if allowEndOfDay = true ∧ hours = 24 ∧ minutes = 0 then some (24 * 60)
      else if 23 < hours ∨ 59 < minutes then none
      else some (hours * 60 + minutes)
    else none
  | _ => none

def parseWindow (period : PricePeriod) : Option ParsedWindow := do
  let start ← windowMinutes period.start false
  let stop ← windowMinutes period.stop true
  let multiplier ← scaledDecimal period.multiplier costDigits
  pure ⟨period.days, start, stop, multiplier⟩

def parseTier (tier : PriceTier) : Option ParsedTier :=
  (parseRateSet tier.rates).map fun rates => ⟨tier.aboveInputTokens, rates⟩

/-- The location and the windows, when the price has any. -/
def parseWindows (loadLocation : Text → Option Location) :
    Option PriceWindows → Option (Option Location × List ParsedWindow)
  | none => some (none, [])
  | some windows => do
      let location ← loadLocation windows.timeZone
      let parsed ← windows.periods.mapM parseWindow
      pure (some location, parsed)

/-- The rates that only retained usage is priced with are amounts. -/
def Price.retainedValid (p : Price) : Bool :=
  (parseAmount p.trainingPerMillion).isSome && (parseAmount p.storagePerGibDay).isSome &&
    (parseAmount p.cacheStoragePerMillionTokenHour).isSome &&
    p.containerPerSession.all fun (tier, fee) =>
      validContainerTier tier && (scaledDecimal fee costDigits).isSome

/-- `parseRates`; none when a rate is not a decimal that the database could have stored. -/
def parseRates (loadLocation : Text → Option Location) (p : Price) : Option PriceRates := do
  guard p.retainedValid
  let rates ← parseRateSet p.rates
  let unit ← parseAmount p.unitPrice
  let perRequest ← parseAmount p.perRequest
  let batch ← parseAmount p.batchMultiplier
  guard (p.toolCalls.all fun call => (scaledDecimal call.2 costDigits).isSome)
  let tiers ← p.tiers.mapM parseTier
  let (location, windows) ← parseWindows loadLocation p.windows
  pure
    { retained := p
      rates := rates
      unit := unit
      perRequest := perRequest
      batch := batch
      tools := fun tool => (p.toolCalls.lookup tool).bind (scaledDecimal · costDigits)
      tiers := tiers
      location := location
      windows := windows }

/-- `selectRates`: the rates of the last tier that the input exceeds. -/
def PriceRates.selectRates (r : PriceRates) (input : Option ℤ) : RateSet :=
  match input with
  | none => r.rates
  | some input =>
    r.tiers.foldl (fun selected tier => if tier.above < input then tier.rates else selected)
      r.rates

def LocalTime.isoDay (l : LocalTime) : ℕ := (l.weekday.val + 6) % 7 + 1

def LocalTime.minutes (l : LocalTime) : ℕ := l.hour * 60 + l.minute

/-- A period holds at a local time. -/
def ParsedWindow.holds (w : ParsedWindow) (l : LocalTime) : Bool :=
  l.isoDay ∈ w.days ∧ w.start ≤ l.minutes ∧ l.minutes < w.stop

/-- `windowAt`: the multiplier of the first period that holds at an instant. -/
def PriceRates.windowAt (r : PriceRates) (at_ : ℤ) : Option ℕ :=
  match r.location with
  | none => none
  | some location => (r.windows.find? fun w => w.holds (location at_)).map (·.multiplier)

/-! ## Usage -/

/-- The token counters of an attempt. -/
inductive Counter
  | input
  | output
  | cachedInput
  | cacheWriteInput
  | cacheWrite5m
  | cacheWrite1h
  | audioInput
  | cachedAudioInput
  | audioOutput
  | imageInput
  | cachedImageInput
  | imageOutput
deriving DecidableEq, Repr

/-- `AttemptUsage`, as far as pricing reads it. -/
structure AttemptUsage where
  tokens : Counter → Option ℤ
  mediaUnits : Option Text
  toolCalls : List (Text × ℤ)
  batch : Bool
  complete : Bool
  deferred : Bool
  invocationCount : Option ℤ
  trainingTokens : Option ℤ
  storageByteSeconds : Option Text
  cacheTokenSeconds : Option Text
  containerSessions : List (Text × ℤ)

def AttemptUsage.count (u : AttemptUsage) (c : Counter) : ℤ := (u.tokens c).getD 0

def wrap64 (x : ℤ) : ℤ := x.bmod (2 ^ 64)

theorem wrap64_eq {x : ℤ} (h₁ : -2 ^ 63 ≤ x) (h₂ : x < 2 ^ 63) : wrap64 x = x := by
  unfold wrap64
  rw [Int.bmod_eq_of_le]
  · omega
  · omega

/-- The shares of the input, before 64-bit arithmetic, with the rates they bill at. -/
def AttemptUsage.exactInputShares (u : AttemptUsage) : List (ℤ × List RateField) :=
  let cached := u.count .cachedInput
  let write := u.count .cacheWriteInput
  let write5m := u.count .cacheWrite5m
  let write1h := u.count .cacheWrite1h
  let audio := u.count .audioInput
  let cachedAudio := u.count .cachedAudioInput
  let image := u.count .imageInput
  let cachedImage := u.count .cachedImageInput
  [(u.count .input - cached - write - (audio - cachedAudio) - (image - cachedImage), chainText),
    (cached - cachedAudio - cachedImage, chainCached),
    (cachedAudio, chainCachedAudio),
    (cachedImage, chainCachedImage),
    (audio - cachedAudio, chainAudio),
    (image - cachedImage, chainImage),
    (write - write5m - write1h, chainWrite),
    (write5m, chainWrite5m),
    (write1h, chainWrite1h)]

/-- The shares of the output. -/
def AttemptUsage.exactOutputShares (u : AttemptUsage) : List (ℤ × List RateField) :=
  let audio := u.count .audioOutput
  let image := u.count .imageOutput
  [(u.count .output - audio - image, chainOutput),
    (audio, chainAudioOut),
    (image, chainImageOut)]

/-- Shares as signed 64-bit numbers. -/
def wrapShares (shares : List (ℤ × List RateField)) : List (ℤ × List RateField) :=
  shares.map fun share => (wrap64 share.1, share.2)

def AttemptUsage.inputShares (u : AttemptUsage) : List (ℤ × List RateField) :=
  wrapShares u.exactInputShares

def AttemptUsage.outputShares (u : AttemptUsage) : List (ℤ × List RateField) :=
  wrapShares u.exactOutputShares

/-- `inputSharesAbsent`. -/
def AttemptUsage.inputSharesAbsent (u : AttemptUsage) : Bool :=
  [Counter.cachedInput, .cacheWriteInput, .cacheWrite5m, .cacheWrite1h, .audioInput,
    .cachedAudioInput, .imageInput, .cachedImageInput].all fun c => (u.tokens c).isNone

/-- `retainedValues`. -/
def AttemptUsage.retainedValues (u : AttemptUsage) : Bool :=
  u.invocationCount.isSome || u.trainingTokens.isSome || u.storageByteSeconds.isSome ||
    u.cacheTokenSeconds.isSome || u.containerSessions ≠ []

/-- How many invocations an attempt was; deferred usage counts none on its own. -/
def AttemptUsage.invocations (u : AttemptUsage) : ℤ :=
  u.invocationCount.getD (if u.deferred then 0 else 1)

end Olp.Pricing
