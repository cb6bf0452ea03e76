import Mathlib.Algebra.Order.Ring.Int
import Mathlib.Order.ConditionallyCompleteLattice.Basic
import Mathlib.Data.Int.ConditionallyCompleteOrder

/-!
# Boundaries of a step function

A nondecreasing function `u` from instants to cells cuts time into intervals.  When every cell has
a first instant, these first instants are the lower adjoint `l` of `u`: `l c ≤ x ↔ c ≤ u x`.  The
interval of an instant `x` is then `[l (u x), l (u x + 1))`.

`bisect` finds such a first instant between two bounds; `bisect_le_iff` shows that it is the lower
adjoint, as long as the bounds enclose it.
-/

namespace Olp.Boundary

/-! ## Intervals of an adjoint -/

section Adjoint

variable {α : Type*} [LinearOrder α] {l : ℤ → α} {u : α → ℤ} {x y : α} {c : ℤ}

theorem lt_next (gc : GaloisConnection l u) (x : α) : x < l (u x + 1) := by
  rw [← not_le, gc]
  omega

theorem mem_interval_iff (gc : GaloisConnection l u) : l c ≤ x ∧ x < l (c + 1) ↔ u x = c := by
  rw [← not_le, gc, gc]
  omega

theorem galoisConnection_of_strictMono (hl : StrictMono l)
    (h : ∀ x, l (u x) ≤ x ∧ x < l (u x + 1)) : GaloisConnection l u := by
  intro c x
  obtain ⟨hle, hlt⟩ := h x
  constructor
  · intro hc
    have := hl.lt_iff_lt.mp (lt_of_le_of_lt hc hlt)
    omega
  · intro hc
    exact (hl.monotone hc).trans hle

theorem next_le_of_lt (gc : GaloisConnection l u) (h : x < l c) : l (u x + 1) ≤ l c := by
  rw [← not_le, gc] at h
  exact gc.monotone_l (by omega)

end Adjoint

/-! ## Bisection -/

/-- The first point from `low` on that is not `below`, by halving the distance to `high`. -/
def bisect (below : ℤ → Bool) (low high : ℤ) : ℤ :=
  if low < high then
    let middle := low + (high - low) / 2
    if below middle then bisect below (middle + 1) high else bisect below low middle
  else low
termination_by (high - low).toNat

section Bisect

variable {f : ℤ → ℤ} {c : ℤ}

theorem bisect_le_iff (hf : Monotone f) (low high : ℤ) (hlow : ∀ t < low, f t < c)
    (hhigh : c ≤ f high) (t : ℤ) : bisect (fun s => f s < c) low high ≤ t ↔ c ≤ f t := by
  fun_induction bisect (fun s => f s < c) low high with
  | case1 low high hlt middle hbelow ih =>
    refine ih (fun s hs => ?_) hhigh
    have hle : f s ≤ f middle := hf (by omega)
    exact lt_of_le_of_lt hle (by simpa using hbelow)
  | case2 low high hlt middle hbelow ih =>
    exact ih hlow (by simpa using hbelow)
  | case3 low high hge =>
    constructor
    · intro hle
      exact hhigh.trans (hf (by omega))
    · intro hc
      by_contra hlt
      exact absurd (hlow t (by omega)) (by omega)

theorem bisect_eq_low {below : ℤ → Bool} (low high : ℤ)
    (h : ∀ t, low ≤ t → below t = false) : bisect below low high = low := by
  fun_induction bisect below low high with
  | case1 low high hlt middle hbelow ih =>
    exact absurd (h middle (by omega)) (by simp [hbelow])
  | case2 low high hlt middle hbelow ih => exact ih h
  | case3 low high hge => rfl

end Bisect

end Olp.Boundary
