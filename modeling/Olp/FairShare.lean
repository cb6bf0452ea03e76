import Mathlib.Algebra.BigOperators.Group.Finset.Piecewise
import Mathlib.Algebra.Order.BigOperators.Group.Finset
import Mathlib.Tactic.Linarith

/-!
# Smooth weighted round robin

Each turn, the lines of a set `S` gain their weights; the line with the greatest credit is served,
and pays the weight of the whole set.  Lines come and go between turns: one that joins starts at
zero.

The sum of all credits is not kept, since a line that goes takes its credit along.  What is kept is
a bound on the credit of every set `A` of lines at once, `W · |A| · (2n - |A|)` for `n` lines of
total weight `W`.  It is concave in `|A|`, and a turn moves the credit of `A` at most to the mean of
the credits of a set with one line less and of a set with one line more.
-/

namespace Olp

open Finset

variable {ι : Type*} {w : ι → ℤ} {S : Finset ι} {c c' : ι → ℤ} {W : ℤ} {n : ℕ}

def Spread (W : ℤ) (n : ℕ) (S : Finset ι) (c : ι → ℤ) : Prop :=
  ∀ A ⊆ S, |∑ i ∈ A, c i| ≤ W * (A.card * (2 * n - A.card))

theorem Spread.credit_le (h : Spread W n S c) {i : ι} (hi : i ∈ S) : |c i| ≤ W * (2 * n - 1) := by
  simpa using h {i} (singleton_subset_iff.mpr hi)

theorem Spread.mono {S' : Finset ι} (h : Spread W n S c) (hS : S' ⊆ S) (hc : ∀ i ∈ S', c' i = c i) :
    Spread W n S' c' := by
  intro A hA
  rw [sum_congr rfl fun i hi => hc i (hA hi)]
  exact h A (hA.trans hS)

variable [DecidableEq ι]

theorem Spread.join {i : ι} (h : Spread W n S c) (hW : 0 ≤ W) (hn : (insert i S).card ≤ n)
    (hi : i ∉ S → c i = 0) : Spread W n (insert i S) c := by
  by_cases hmem : i ∈ S
  · rwa [insert_eq_of_mem hmem]
  intro A hA
  by_cases hiA : i ∈ A
  · have hrest := h (A.erase i) (subset_insert_iff.mp hA)
    have hsum := add_sum_erase A c hiA
    rw [hi hmem, zero_add] at hsum
    rw [hsum] at hrest
    refine hrest.trans (mul_le_mul_of_nonneg_left ?_ hW)
    have hcard := card_erase_add_one hiA
    have hle := (card_le_card hA).trans hn
    zify at hcard hle
    nlinarith
  · exact h A fun j hj => (mem_insert.mp (hA hj)).resolve_left (by rintro rfl; exact hiA hj)

/-- A turn in which `b` is served. -/
structure Turn (w : ι → ℤ) (S : Finset ι) (c : ι → ℤ) (b : ι) (c' : ι → ℤ) : Prop where
  mem : b ∈ S
  best : ∀ i ∈ S, c i + w i ≤ c b + w b
  eq : ∀ i ∈ S, c' i = c i + w i - if i = b then ∑ j ∈ S, w j else 0

variable {b : ι} {A : Finset ι}

theorem Turn.sum (h : Turn w S c b c') (hA : A ⊆ S) :
    ∑ i ∈ A, c' i = ∑ i ∈ A, c i + ∑ i ∈ A, w i - if b ∈ A then ∑ j ∈ S, w j else 0 := by
  rw [sum_congr rfl fun i hi => h.eq i (hA hi), sum_sub_distrib, sum_add_distrib, sum_ite_eq']

theorem Spread.mean (h : Spread W n S c) {x y : ι} (hA : A ⊆ S) (hx : x ∈ A) (hy : y ∈ S)
    (hyA : y ∉ A) :
    |2 * ∑ i ∈ A, c i + c y - c x| ≤ 2 * (W * (A.card * (2 * n - A.card))) - 2 * W := by
  have hless := abs_le.mp (h (A.erase x) ((erase_subset x A).trans hA))
  have hmore := abs_le.mp (h (insert y A) (insert_subset hy hA))
  have hx' := add_sum_erase A c hx
  have hcard := card_erase_add_one hx
  rw [sum_insert hyA, card_insert_of_notMem hyA] at hmore
  zify at hcard
  rw [eq_sub_of_add_eq hcard] at hless
  push_cast at hmore
  rw [abs_le]
  constructor <;> nlinarith

theorem Turn.spread (h : Turn w S c b c') (hw : ∀ i, 0 ≤ w i) (hW : ∑ i ∈ S, w i ≤ W)
    (hc : Spread W n S c) : Spread W n S c' := by
  intro A hA
  have hsum := h.sum hA
  have hAS : ∑ i ∈ A, w i ≤ ∑ i ∈ S, w i :=
    sum_le_sum_of_subset_of_nonneg hA fun i _ _ => hw i
  have hpos : 0 ≤ ∑ i ∈ A, w i := sum_nonneg fun i _ => hw i
  have hold := abs_le.mp (hc A hA)
  rw [abs_le]
  by_cases hb : b ∈ A
  · rw [if_pos hb] at hsum
    refine ⟨?_, by linarith⟩
    by_cases hall : A = S
    · subst hall
      linarith
    -- a line that is not in the set has no more credit than the one served
    · obtain ⟨y, hyS, hyA⟩ := exists_of_ssubset (hA.ssubset_of_ne hall)
      have hmean := abs_le.mp (hc.mean hA hb hyS hyA)
      have hbest := h.best y hyS
      have hwb := single_le_sum (fun i _ => hw i) hb
      have := hw y
      linarith
  · rw [if_neg hb] at hsum
    refine ⟨by linarith, ?_⟩
    rcases A.eq_empty_or_nonempty with rfl | ⟨y, hy⟩
    · simp
    -- a line of the set has no more credit than the one served
    · have hmean := abs_le.mp (hc.mean hA hy h.mem hb)
      have hbest := h.best y (hA hy)
      have hinsert : ∑ i ∈ insert b A, w i ≤ ∑ i ∈ S, w i :=
        sum_le_sum_of_subset_of_nonneg (insert_subset h.mem hA) fun i _ _ => hw i
      rw [sum_insert hb] at hinsert
      have := hw y
      linarith

end Olp
