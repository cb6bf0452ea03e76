import Mathlib.Tactic.Linarith
import Mathlib.Tactic.Ring

/-!
# Integers held in a Lua number

A Lua 5.1 number is an IEEE double.  A whole number up to `2 ^ 53` is held
exactly; beyond that a sum is rounded to the nearest double, ties to the even
mantissa.  `double` is that rounding on whole numbers.  The scripts stay below
`2 ^ 53` almost everywhere; the one sum that can pass it adds a caller's time to
live to the clock.
-/

namespace Olp.Lua

/-- The double nearest to a whole number, ties to even. -/
def double (n : Nat) : Nat :=
  let ulp := 2 ^ (n.log2 + 1 - 53)
  let q := n / ulp
  let r := n % ulp
  if 2 * r < ulp ∨ 2 * r = ulp ∧ q % 2 = 0 then q * ulp else (q + 1) * ulp

variable {n : Nat}

theorem double_of_lt (h : n < 2 ^ 53) : double n = n := by
  have hlog : n.log2 + 1 - 53 = 0 := by
    by_cases hn : n = 0
    · subst hn
      decide
    · have := (Nat.log2_lt hn).2 h
      omega
  simp [double, hlog, Nat.mod_one]

theorem pow_le_double (h : 2 ^ 53 ≤ n) : 2 ^ 53 ≤ double n := by
  have hn : n ≠ 0 := by
    rintro rfl
    simp at h
  have hlog : 53 ≤ n.log2 := (Nat.le_log2 hn).2 h
  have hself : 2 ^ n.log2 ≤ n := Nat.log2_self_le hn
  obtain ⟨k, hk⟩ : ∃ k, n.log2 = 52 + k := ⟨n.log2 - 52, by omega⟩
  have hulp : n.log2 + 1 - 53 = k := by omega
  rw [hk, Nat.pow_add] at hself
  have hq : 2 ^ 52 ≤ n / 2 ^ k := (Nat.le_div_iff_mul_le (by positivity)).2 hself
  have hk1 : 2 ≤ 2 ^ k := by
    calc 2 = 2 ^ 1 := rfl
      _ ≤ 2 ^ k := Nat.pow_le_pow_right (by decide) (by omega)
  have hbase : 2 ^ 53 ≤ n / 2 ^ k * 2 ^ k := by
    calc 2 ^ 53 = 2 ^ 52 * 2 := rfl
      _ ≤ n / 2 ^ k * 2 ^ k := Nat.mul_le_mul hq hk1
  simp only [double, hulp]
  split
  · exact hbase
  · exact le_trans hbase (Nat.mul_le_mul_right _ (Nat.le_succ _))

/-- A number that is a double stays below what was at least as large before
rounding. -/
theorem le_double {m : Nat} (hm : m ≤ 2 ^ 53) (h : m ≤ n) : m ≤ double n := by
  by_cases hn : n < 2 ^ 53
  · rwa [double_of_lt hn]
  · exact le_trans hm (pow_le_double (by omega))

@[simp] theorem double_of_le (h : n ≤ 2 ^ 53) : double n = n := by
  rcases Nat.lt_or_eq_of_le h with hlt | rfl
  · exact double_of_lt hlt
  · decide

theorem double_le (h : n < 2 ^ 54) : double n ≤ n + 1 := by
  by_cases hn : n < 2 ^ 53
  · rw [double_of_lt hn]
    exact Nat.le_succ n
  · have hne : n ≠ 0 := by
      rintro rfl
      simp at hn
    have hlog : n.log2 = 53 := by
      have h1 : 53 ≤ n.log2 := (Nat.le_log2 hne).2 (by omega)
      have h2 : n.log2 < 54 := (Nat.log2_lt hne).2 h
      omega
    simp only [double, hlog, show 53 + 1 - 53 = 1 from rfl, Nat.pow_one]
    split <;> omega

end Olp.Lua
