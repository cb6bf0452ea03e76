import Olp.Limits.Decimal

/-!
# Amounts of money in two limbs

The block `cost_pending`, which the three cost scripts share byte for byte,
carries an amount as whole units and a fraction in units of `10 ^ -12`, because a
Lua number holds neither fifteen whole nor twelve fractional digits beside the
other.  An amount of `10 ^ 15` whole units or more is held as exactly that.

An `Amount` carries these bounds as fields.  `Amount.units` is what it is worth
in units of `10 ^ -12`; every operation of the block is stated in it:

* `units_add`: the sum, saturating at the cap;
* `units_sub`: the difference, floored at zero;
* `compareAmount_le_zero` and its siblings: the comparison is that of the worth;
* `parseAmount_formatAmount`: the text of an amount reads back as the amount;
* `units_parseAmount`: what a text is read as is the exact decimal it spells,
  cut at the cap.
-/

namespace Olp.Limits

open Text

/-- `UNIT`: how many units of `10 ^ -12` a whole unit has. -/
abbrev unit : Nat := 1000000000000

/-- `HUGE`: the whole units at which an amount saturates. -/
abbrev huge : Nat := 1000000000000000

/-- `SCALE`: the fractional digits an amount carries. -/
abbrev scale : Nat := 12

/-- An amount in two limbs, within the range the scripts keep it in. -/
@[ext]
structure Amount where
  hi : Nat
  lo : Nat
  lo_lt : lo < unit
  capped : hi < huge ∨ hi = huge ∧ lo = 0
deriving DecidableEq, Repr

namespace Amount

def zero : Amount := ⟨0, 0, by decide, by decide⟩

def cap : Amount := ⟨huge, 0, by decide, by decide⟩

/-- The worth of an amount in units of `10 ^ -12`. -/
def units (a : Amount) : Nat := a.hi * unit + a.lo

abbrev capUnits : Nat := huge * unit

@[simp] theorem units_zero : zero.units = 0 := rfl

theorem units_le (a : Amount) : a.units ≤ capUnits := by
  have h₁ := a.lo_lt
  have h₂ := a.capped
  simp only [units, capUnits, unit, huge] at *
  omega

theorem units_injective : Function.Injective units := fun a b h => by
  have ha := a.lo_lt
  have hb := b.lo_lt
  simp only [units, unit] at *
  exact Amount.ext (by omega) (by omega)

theorem units_eq_zero {a : Amount} : a.units = 0 ↔ a.hi = 0 ∧ a.lo = 0 := by
  simp only [units, unit]
  omega

end Amount

/-! ## Arithmetic -/

/-- `compare_amount`. -/
def compareAmount (a b : Amount) : Int :=
  if a.hi ≠ b.hi then (if a.hi < b.hi then -1 else 1)
  else if a.lo ≠ b.lo then (if a.lo < b.lo then -1 else 1)
  else 0

/-- `add_amount`: carry, then saturate. -/
def addAmount (a b : Amount) : Amount :=
  if h : unit ≤ a.lo + b.lo then
    if h' : huge ≤ a.hi + b.hi + 1 then .cap
    else ⟨a.hi + b.hi + 1, a.lo + b.lo - unit, by have := a.lo_lt; have := b.lo_lt; omega,
      .inl (by omega)⟩
  else if h' : huge ≤ a.hi + b.hi then .cap
  else ⟨a.hi + b.hi, a.lo + b.lo, by omega, .inl (by omega)⟩

/-- `sub_amount`: floored at zero, so that a drifted sum never goes negative. -/
def subAmount (a b : Amount) : Amount :=
  if h : compareAmount a b ≤ 0 then .zero
  else if h' : a.lo < b.lo then
    ⟨a.hi - b.hi - 1, a.lo + unit - b.lo, by have := b.lo_lt; omega, .inl (by
      have := a.capped
      simp only [compareAmount] at h
      split at h <;> split at h <;> simp only [huge] at * <;> omega)⟩
  else ⟨a.hi - b.hi, a.lo - b.lo, by have := a.lo_lt; omega, by
      have := a.capped
      simp only [huge] at *
      omega⟩

namespace Amount

/-- Comparing limb by limb compares the amounts. -/
theorem compareAmount_eq (a b : Amount) :
    compareAmount a b = if a.units < b.units then -1 else if b.units < a.units then 1 else 0 := by
  have ha := a.lo_lt
  have hb := b.lo_lt
  simp only [compareAmount, units, unit] at *
  split_ifs <;> omega

variable {a b : Amount}

theorem compareAmount_le_zero : compareAmount a b ≤ 0 ↔ a.units ≤ b.units := by
  rw [compareAmount_eq]
  split_ifs <;> omega

theorem neg_one_lt_compareAmount : -1 < compareAmount a b ↔ b.units ≤ a.units := by
  rw [compareAmount_eq]
  split_ifs <;> omega

/-- Addition is exact up to the cap. -/
theorem units_add (a b : Amount) : (addAmount a b).units = min (a.units + b.units) capUnits := by
  have ha := a.lo_lt
  have hb := b.lo_lt
  have hu : unit = 1000000000000 := rfl
  have hh : huge = 1000000000000000 := rfl
  simp only [addAmount]
  split_ifs <;> simp only [units, cap, capUnits, unit, huge] <;> omega

theorem units_add_of_lt (h : a.units + b.units < capUnits) :
    (addAmount a b).units = a.units + b.units := by
  rw [units_add, min_eq_left (Nat.le_of_lt h)]

/-- Subtraction is exact and stops at nothing. -/
theorem units_sub (a b : Amount) : (subAmount a b).units = a.units - b.units := by
  have ha := a.lo_lt
  have hb := b.lo_lt
  simp only [subAmount]
  split
  · rename_i h
    rw [compareAmount_le_zero] at h
    rw [units_zero]
    omega
  · rename_i h
    rw [compareAmount_le_zero] at h
    split <;> simp only [units, unit] at * <;> omega

end Amount

/-! ## Text -/

/-- The limbs `parse_amount` reads in a text: none for a text that is no plain
decimal or has more than twelve significant fractional digits. -/
def parseLimbs (raw : Option Text) : Option (Nat × Nat) :=
  match raw.bind splitDecimal with
  | none => none
  | some (whole, point, fraction) =>
    if point = true ∧ fraction = [] then none
    else
      let fraction := if scale < fraction.length then trimTrailing fraction else fraction
      if scale < fraction.length then none
      else if huge ≤ value whole then some (huge, 0)
      else if fraction = [] then some (value whole, 0)
      -- a fraction of `n` digits counts in units of `10 ^ -n`
      else some (value whole, value fraction * 10 ^ (scale - fraction.length))

theorem value_scale_lt {f : Text} (hd : IsDigits f) (h : f.length ≤ scale) :
    value f * 10 ^ (scale - f.length) < unit :=
  calc value f * 10 ^ (scale - f.length)
      < 10 ^ f.length * 10 ^ (scale - f.length) :=
        Nat.mul_lt_mul_of_pos_right (value_lt hd) (by positivity)
    _ = 10 ^ scale := by rw [← Nat.pow_add, Nat.add_sub_cancel' h]
    _ = unit := by norm_num

theorem parseLimbs_bounds {raw : Option Text} {p : Nat × Nat} (h : parseLimbs raw = some p) :
    p.2 < unit ∧ (p.1 < huge ∨ p.1 = huge ∧ p.2 = 0) := by
  simp only [parseLimbs] at h
  split at h
  · simp at h
  · rename_i whole point fraction hs
    cases raw with
    | none => simp at hs
    | some raw =>
      obtain ⟨-, -, hd, -⟩ := splitDecimal_eq_some (by simpa using hs)
      split at h
      · simp at h
      set f := if scale < fraction.length then trimTrailing fraction else fraction with hf
      have hfd : IsDigits f := by
        rw [hf]
        split
        · exact hd.trimTrailing
        · exact hd
      split at h
      · simp at h
      split at h
      · obtain rfl : _ = p := by simpa using h
        exact ⟨by decide, .inr ⟨rfl, rfl⟩⟩
      split at h
      · obtain rfl : _ = p := by simpa using h
        exact ⟨Nat.succ_pos _, .inl (by simpa using ‹¬ huge ≤ value whole›)⟩
      · obtain rfl : _ = p := by simpa using h
        exact ⟨value_scale_lt hfd (Nat.not_lt.1 ‹_›), .inl (by omega)⟩

/-- `parse_amount`. -/
def parseAmount (raw : Option Text) : Option Amount :=
  match h : parseLimbs raw with
  | none => none
  | some p => some ⟨p.1, p.2, (parseLimbs_bounds h).1, (parseLimbs_bounds h).2⟩

/-- `string.format("%012d", lo)`. -/
def pad (lo : Nat) : Text := List.replicate (scale - (ofNat lo).length) '0' ++ ofNat lo

/-- `format_amount`: no leading zeros, no trailing fractional zeros. -/
def formatAmount (a : Amount) : Text :=
  if a.lo = 0 then ofNat a.hi else ofNat a.hi ++ '.' :: trimTrailing (pad a.lo)

theorem parseAmount_eq_some {raw : Option Text} {a : Amount} :
    parseAmount raw = some a ↔ parseLimbs raw = some (a.hi, a.lo) := by
  unfold parseAmount
  split
  · rename_i h
    simp [h]
  · rename_i p h
    simp only [h, Option.some_inj, Amount.ext_iff, Prod.ext_iff]

@[simp] theorem parseAmount_none : parseAmount none = none := by
  rw [Option.eq_none_iff_forall_ne_some]
  intro a h
  rw [parseAmount_eq_some] at h
  simp [parseLimbs] at h

theorem length_pad {lo : Nat} (h : lo < unit) : (pad lo).length = scale := by
  have : (ofNat lo).length ≤ scale := length_ofNat_le (by decide) (h.trans_eq (by norm_num))
  simp only [pad, List.length_append, List.length_replicate]
  omega

@[simp] theorem value_pad (lo : Nat) : value (pad lo) = lo := by
  simp [pad, value_append]

theorem isDigits_pad (lo : Nat) : IsDigits (pad lo) :=
  isDigits_append.2 ⟨isDigits_replicate _, isDigits_ofNat _⟩

@[simp] theorem parseAmount_formatAmount (a : Amount) :
    parseAmount (some (formatAmount a)) = some a := by
  have hcap := a.capped
  rw [parseAmount_eq_some]
  by_cases hlo : a.lo = 0
  · have hs : splitDecimal (ofNat a.hi) = some (ofNat a.hi, false, []) :=
      splitDecimal_digits (isDigits_ofNat _) (ofNat_ne_nil _)
    by_cases hh : huge ≤ a.hi
    · have : huge = a.hi := by omega
      simpa [formatAmount, parseLimbs, hlo, hs, hh] using this
    · simp [formatAmount, parseLimbs, hlo, hs, hh]
  · have hlen := length_pad a.lo_lt
    have hle := length_trimTrailing_le (pad a.lo)
    have hval := value_trimTrailing (pad a.lo)
    rw [value_pad, hlen] at hval
    have hs : splitDecimal (formatAmount a) = some (ofNat a.hi, true, trimTrailing (pad a.lo)) := by
      rw [formatAmount, if_neg hlo]
      exact splitDecimal_point (isDigits_ofNat _) (ofNat_ne_nil _) (isDigits_pad _).trimTrailing
    have hne : trimTrailing (pad a.lo) ≠ [] := fun h => by
      rw [h] at hval
      exact hlo hval
    have hhi : ¬ huge ≤ a.hi := by omega
    have hsc : ¬ scale < (trimTrailing (pad a.lo)).length := by omega
    simp [parseLimbs, hs, hne, hhi, hsc, ← hval]

/-! ## Exactness -/

/-- What a text is read as is the exact decimal it spells, cut at the cap. -/
theorem units_parseAmount {raw : Text} {a : Amount} (h : parseAmount (some raw) = some a) :
    ∃ q, decimal? raw = some q ∧ (a.units : ℚ) = min (q * 10 ^ scale) Amount.capUnits := by
  rw [parseAmount_eq_some] at h
  simp only [parseLimbs, Option.bind_some] at h
  split at h
  · simp at h
  · rename_i whole point fraction hs
    obtain ⟨hwd, -, hfd, -⟩ := splitDecimal_eq_some hs
    split at h
    · simp at h
    rename_i hpoint
    refine ⟨rat whole fraction, by simp [decimal?, plainDecimal, hs, hpoint], ?_⟩
    -- the trimmed fraction spells the same number
    have hrat : rat whole fraction
        = rat whole (if scale < fraction.length then trimTrailing fraction else fraction) := by
      split
      · rw [rat_trimTrailing]
      · rfl
    rw [hrat]
    have hdig : IsDigits (if scale < fraction.length then trimTrailing fraction else fraction) := by
      split
      · exact hfd.trimTrailing
      · exact hfd
    revert h hdig
    generalize (if scale < fraction.length then trimTrailing fraction else fraction) = f
    intro h hdig
    split at h
    · simp at h
    rename_i hlen
    rw [rat_fill (Nat.not_lt.1 hlen), value_fill, show 10 ^ scale = unit by norm_num]
    split at h
    · rename_i hhuge
      obtain ⟨h₁, h₂⟩ : huge = a.hi ∧ 0 = a.lo := by simpa using h
      rw [min_eq_right]
      · rw [Amount.units, ← h₁, ← h₂, Nat.add_zero]
      · exact_mod_cast le_trans (Nat.mul_le_mul_right unit hhuge) (Nat.le_add_right _ _)
    · rename_i hhuge
      have hunits : a.units = value whole * unit + value f * 10 ^ (scale - f.length) := by
        split at h
        · rename_i hnil
          obtain ⟨h₁, h₂⟩ : value whole = a.hi ∧ 0 = a.lo := by simpa using h
          simp [Amount.units, ← h₁, ← h₂, hnil]
        · obtain ⟨h₁, h₂⟩ : value whole = a.hi ∧ _ = a.lo := by simpa using h
          rw [Amount.units, ← h₁, ← h₂]
      rw [← hunits, min_eq_left]
      exact_mod_cast a.units_le

theorem parseAmount_isSome {raw whole fraction : Text}
    (h : plainDecimal raw = some (whole, fraction)) (hlen : fraction.length ≤ scale) :
    (parseAmount (some raw)).isSome := by
  unfold plainDecimal at h
  split at h
  · simp at h
  · rename_i w point f hs
    split at h
    · simp at h
    · rename_i hpoint
      obtain ⟨rfl, rfl⟩ : w = whole ∧ f = fraction := by simpa using h
      have hsome : (parseLimbs (some raw)).isSome := by
        simp only [parseLimbs, Option.bind_some, hs, if_neg hpoint, if_neg (Nat.not_lt.2 hlen)]
        split
        · rfl
        · split <;> rfl
      obtain ⟨p, hp⟩ := Option.isSome_iff_exists.1 hsome
      unfold parseAmount
      split
      · rename_i hnone
        simp [hp] at hnone
      · rfl

end Olp.Limits
