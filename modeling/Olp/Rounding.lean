import Mathlib.Algebra.BigOperators.Group.List.Basic
import Mathlib.Tactic.Ring

/-!
# Rounded quotients

Division of natural numbers with the remainder rounded half up or up, and chains of
multiplications by numbers of one fixed scale.  A chain that rounds after every factor is
compared with one that multiplies everything out and rounds once.
-/

namespace Olp.Rounding

def halfUp (n d : ℕ) : ℕ := (n + d / 2) / d

def up (n d : ℕ) : ℕ := (n + (d - 1)) / d

variable {n m d : ℕ}

theorem halfUp_le (hd : 0 < d) (h : n ≤ m * d) : halfUp n d ≤ m := by
  have hlt : n + d / 2 < d * (m + 1) := by
    calc n + d / 2 < m * d + d := by omega
      _ = d * (m + 1) := by ring
  exact Nat.lt_succ_iff.1 (Nat.div_lt_of_lt_mul hlt)

theorem le_halfUp (hd : 0 < d) (h : m * d ≤ n) : m ≤ halfUp n d :=
  (Nat.le_div_iff_mul_le hd).2 (h.trans (Nat.le_add_right _ _))

theorem halfUp_mono (h : n ≤ m) : halfUp n d ≤ halfUp m d :=
  Nat.div_le_div_right (Nat.add_le_add_right h _)

theorem halfUp_eq_ite (n : ℕ) (hd : 2 ∣ d) (hpos : 0 < d) :
    halfUp n d = if d ≤ n % d * 2 then n / d + 1 else n / d := by
  obtain ⟨e, rfl⟩ := hd
  have hmod := Nat.mod_lt n hpos
  have hsplit : n + 2 * e / 2 = n % (2 * e) + e + 2 * e * (n / (2 * e)) := by
    have := Nat.mod_add_div n (2 * e)
    omega
  rw [halfUp, hsplit, Nat.add_mul_div_left _ _ hpos]
  split
  · rw [Nat.div_eq_of_lt_le (k := 1) (by omega) (by omega), add_comm]
  · rw [Nat.div_eq_of_lt (by omega), zero_add]

theorem le_up_mul (n : ℕ) (hd : 0 < d) : n ≤ up n d * d := by
  have h := Nat.lt_div_mul_add hd (a := n + (d - 1))
  unfold up
  omega

theorem up_le (hd : 0 < d) (h : n ≤ m * d) : up n d ≤ m := by
  have hlt : n + (d - 1) < d * (m + 1) := by
    calc n + (d - 1) < m * d + d := by omega
      _ = d * (m + 1) := by ring
  exact Nat.lt_succ_iff.1 (Nat.div_lt_of_lt_mul hlt)

theorem up_mono (h : n ≤ m) : up n d ≤ up m d :=
  Nat.div_le_div_right (Nat.add_le_add_right h _)

theorem halfUp_le_up (n : ℕ) (hd : 0 < d) : halfUp n d ≤ up n d :=
  halfUp_le hd (le_up_mul n hd)

/-! ## Multipliers of one scale -/

variable {u : ℕ}

def chainUp (u : ℕ) : ℕ → List ℕ → ℕ := List.foldl fun b m => up (b * m) u

def chainDown (u : ℕ) : ℕ → List ℕ → ℕ := List.foldl fun b m => b * m / u

theorem chainUp_singleton (u b m : ℕ) : chainUp u b [m] = up (b * m) u := rfl

theorem chainDown_singleton (u b m : ℕ) : chainDown u b [m] = b * m / u := rfl

theorem chainUp_append (u b : ℕ) (ms ns : List ℕ) :
    chainUp u b (ms ++ ns) = chainUp u (chainUp u b ms) ns := List.foldl_append

theorem chainDown_append (u b : ℕ) (ms ns : List ℕ) :
    chainDown u b (ms ++ ns) = chainDown u (chainDown u b ms) ns := List.foldl_append

theorem le_chainUp (hu : 0 < u) (b : ℕ) (ms : List ℕ) :
    b * ms.prod ≤ chainUp u b ms * u ^ ms.length := by
  induction ms generalizing b with
  | nil => simp [chainUp]
  | cons m ms ih =>
    calc b * (m :: ms).prod = b * m * ms.prod := by rw [List.prod_cons, mul_assoc]
      _ ≤ up (b * m) u * u * ms.prod := Nat.mul_le_mul_right _ (le_up_mul _ hu)
      _ = up (b * m) u * ms.prod * u := by ring
      _ ≤ chainUp u (up (b * m) u) ms * u ^ ms.length * u := Nat.mul_le_mul_right _ (ih _)
      _ = chainUp u b (m :: ms) * u ^ (m :: ms).length := by
          rw [mul_assoc, ← pow_succ, List.length_cons]
          rfl

theorem chainDown_le (u b : ℕ) (ms : List ℕ) : chainDown u b ms * u ^ ms.length ≤ b * ms.prod := by
  induction ms generalizing b with
  | nil => simp [chainDown]
  | cons m ms ih =>
    calc chainDown u b (m :: ms) * u ^ (m :: ms).length
        = chainDown u (b * m / u) ms * u ^ ms.length * u := by
          rw [mul_assoc, ← pow_succ, List.length_cons]
          rfl
      _ ≤ b * m / u * ms.prod * u := Nat.mul_le_mul_right _ (ih _)
      _ = b * m / u * u * ms.prod := by ring
      _ ≤ b * m * ms.prod := Nat.mul_le_mul_right _ (Nat.div_mul_le_self _ _)
      _ = b * (m :: ms).prod := by rw [List.prod_cons, mul_assoc]

variable {b : ℕ}

theorem chainUp_mono {c : ℕ} (h : b ≤ c) {ms ns : List ℕ} (hms : List.Forall₂ (· ≤ ·) ms ns) :
    chainUp u b ms ≤ chainUp u c ns := by
  induction hms generalizing b c with
  | nil => exact h
  | cons hm _ ih => exact ih (up_mono (Nat.mul_le_mul h hm))

theorem halfUp_prod_le_chainUp (hd : 0 < d) (hu : 0 < u) (h : n ≤ b * d) (ms : List ℕ) :
    halfUp (n * ms.prod) (d * u ^ ms.length) ≤ chainUp u b ms := by
  refine halfUp_le (Nat.mul_pos hd (Nat.pow_pos hu)) ?_
  calc n * ms.prod ≤ b * d * ms.prod := Nat.mul_le_mul_right _ h
    _ = b * ms.prod * d := by ring
    _ ≤ chainUp u b ms * u ^ ms.length * d := Nat.mul_le_mul_right _ (le_chainUp hu b ms)
    _ = chainUp u b ms * (d * u ^ ms.length) := by ring

theorem chainDown_le_halfUp_prod (hd : 0 < d) (hu : 0 < u) (h : b * d ≤ n) (ms : List ℕ) :
    chainDown u b ms ≤ halfUp (n * ms.prod) (d * u ^ ms.length) := by
  refine le_halfUp (Nat.mul_pos hd (Nat.pow_pos hu)) ?_
  calc chainDown u b ms * (d * u ^ ms.length) = chainDown u b ms * u ^ ms.length * d := by ring
    _ ≤ b * ms.prod * d := Nat.mul_le_mul_right _ (chainDown_le u b ms)
    _ = b * d * ms.prod := by ring
    _ ≤ n * ms.prod := Nat.mul_le_mul_right _ h

end Olp.Rounding
