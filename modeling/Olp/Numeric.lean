import Olp.Rounding
import Mathlib.Data.Int.Log
import Mathlib.Data.Rat.Floor
import Mathlib.Algebra.Order.Field.Power

/-!
# Numbers of a database

A `numeric` of PostgreSQL is an exact decimal that carries how many places it shows.  Sums
and products are exact.  A quotient is rounded half away from zero, at a scale that is
chosen from the leading base-10000 digits of the two operands so that the result keeps
sixteen significant digits (`divScale`).
-/

namespace Olp

/-- A value and the places it shows. -/
structure Numeric where
  value : ℚ
  scale : ℕ

namespace Numeric

def ofInt (n : ℤ) : Numeric := ⟨n, 0⟩

def add (a b : Numeric) : Numeric := ⟨a.value + b.value, max a.scale b.scale⟩

def mul (a b : Numeric) : Numeric := ⟨a.value * b.value, a.scale + b.scale⟩

/-- Round half away from zero to some places. -/
def roundTo (x : ℚ) (places : ℕ) : ℚ :=
  if 0 ≤ x then ⌊x * 10 ^ places + 1 / 2⌋ / 10 ^ places
  else -(⌊-x * 10 ^ places + 1 / 2⌋ / 10 ^ places)

def cast (x : ℚ) (places : ℕ) : Numeric := ⟨roundTo x places, places⟩

/-- The weight of the leading base-10000 digit, nothing for zero. -/
def weight (x : ℚ) : ℤ := if x = 0 then 0 else Int.log 10000 |x|

def leading (x : ℚ) : ℤ := ⌊|x| / 10000 ^ weight x⌋

/-- The scale of a quotient. -/
def divScale (a b : Numeric) : ℤ :=
  let quotientWeight := weight a.value - weight b.value
  let quotientWeight :=
    if leading a.value ≤ leading b.value then quotientWeight - 1 else quotientWeight
  min (max (max (16 - quotientWeight * 4) a.scale) b.scale) 1000

def div (a b : Numeric) : Numeric :=
  ⟨roundTo (a.value / b.value) (divScale a b).toNat, (divScale a b).toNat⟩

/-! ## Rounding -/

theorem floor_div_add_half (n : ℕ) {d : ℕ} (hd : 2 ∣ d) (hpos : 0 < d) :
    ⌊(n : ℚ) / d + 1 / 2⌋ = (Rounding.halfUp n d : ℤ) := by
  obtain ⟨e, rfl⟩ := hd
  have he : (0 : ℚ) < e := by
    have : 0 < e := by omega
    exact_mod_cast this
  have hsum : (n : ℚ) / (2 * e : ℕ) + 1 / 2 = ((n + e : ℕ) : ℚ) / (2 * e : ℕ) := by
    push_cast
    field_simp
  rw [hsum, Rat.floor_natCast_div_natCast, Rounding.halfUp, Nat.mul_div_cancel_left e (by decide)]
  rfl

theorem roundTo_div (n : ℕ) {m k : ℕ} (h : k < m) :
    roundTo ((n : ℚ) / 10 ^ m) k = (Rounding.halfUp n (10 ^ (m - k)) : ℚ) / 10 ^ k := by
  have hpow : (10 : ℚ) ^ m = 10 ^ (m - k) * 10 ^ k := by
    rw [← pow_add, Nat.sub_add_cancel h.le]
  have hscaled : (n : ℚ) / 10 ^ m * 10 ^ k = n / (10 ^ (m - k) : ℕ) := by
    rw [hpow]
    push_cast
    field_simp
  have heven : 2 ∣ 10 ^ (m - k) := dvd_pow (by decide) (Nat.sub_ne_zero_of_lt h)
  rw [roundTo, if_pos (by positivity), hscaled,
    floor_div_add_half n heven (Nat.pow_pos (by decide))]
  rfl

theorem roundTo_of_le (n : ℕ) {m k : ℕ} (h : m ≤ k) :
    roundTo ((n : ℚ) / 10 ^ m) k = (n : ℚ) / 10 ^ m := by
  have hpow : (10 : ℚ) ^ k = 10 ^ m * 10 ^ (k - m) := by rw [← pow_add, Nat.add_sub_cancel' h]
  have hscaled : (n : ℚ) / 10 ^ m * 10 ^ k = (n * 10 ^ (k - m) : ℕ) := by
    rw [hpow]
    push_cast
    field_simp
  have hfloor : ⌊((n * 10 ^ (k - m) : ℕ) : ℚ) + 1 / 2⌋ = ((n * 10 ^ (k - m) : ℕ) : ℤ) := by
    rw [Int.floor_eq_iff]
    constructor
    · push_cast
      linarith
    · push_cast
      linarith
  rw [roundTo, if_pos (by positivity), hscaled, hfloor, hpow]
  push_cast
  field_simp

/-! ## Leading digits -/

theorem weight_eq {x : ℚ} {w : ℤ} (h₁ : (10000 : ℚ) ^ w ≤ x) (h₂ : x < 10000 ^ (w + 1)) :
    weight x = w := by
  have hpos : 0 < x := lt_of_lt_of_le (by positivity) h₁
  rw [weight, if_neg hpos.ne', abs_of_pos hpos]
  refine le_antisymm (Int.lt_add_one_iff.1 ?_) ?_
  · exact (Int.lt_zpow_iff_log_lt (by decide) hpos).1 (by exact_mod_cast h₂)
  · exact (Int.zpow_le_iff_le_log (by decide) hpos).1 (by exact_mod_cast h₁)

theorem leading_eq {x : ℚ} {w : ℤ} {l : ℕ} (h₀ : 0 < l) (hl : l < 10000)
    (h₁ : l * (10000 : ℚ) ^ w ≤ x) (h₂ : x < (l + 1) * 10000 ^ w) :
    weight x = w ∧ leading x = l := by
  have hw : weight x = w := by
    refine weight_eq (le_trans ?_ h₁) (h₂.trans_le ?_)
    · have : (1 : ℚ) ≤ l := by exact_mod_cast h₀
      exact le_mul_of_one_le_left (by positivity) this
    · rw [zpow_add_one₀ (by norm_num), mul_comm]
      have : (l : ℚ) + 1 ≤ 10000 := by exact_mod_cast hl
      gcongr
  refine ⟨hw, ?_⟩
  have hpos : 0 ≤ x := le_trans (by positivity) h₁
  rw [leading, hw, abs_of_nonneg hpos, Int.floor_eq_iff]
  constructor
  · rw [le_div_iff₀ (by positivity)]
    exact_mod_cast h₁
  · rw [div_lt_iff₀ (by positivity)]
    exact_mod_cast h₂

end Numeric

end Olp
