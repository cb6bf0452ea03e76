import Mathlib.Algebra.BigOperators.Group.List.Basic
import Mathlib.Algebra.Order.Group.Nat
import Mathlib.Algebra.GroupWithZero.Nat

/-!
# Tallies

A system of agents that take steps one at a time, as a list in which a step replaces one entry.
`tally f` adds up what `f` counts for each agent; a step changes it by what it changes for the
agent that takes it.
-/

namespace Olp

open List

variable {α : Type*}

def tally (f : α → ℕ) (l : List α) : ℕ := (l.map f).sum

@[simp] theorem tally_nil (f : α → ℕ) : tally f [] = 0 := rfl

@[simp] theorem tally_cons (f : α → ℕ) (a : α) (l : List α) :
    tally f (a :: l) = f a + tally f l := sum_cons

@[simp] theorem tally_concat (f : α → ℕ) (l : List α) (a : α) :
    tally f (l ++ [a]) = tally f l + f a := by
  induction l with
  | nil => simp
  | cons b l ih => simp only [cons_append, tally_cons, ih]; omega

variable {a : α} {f : α → ℕ} {i : ℕ} {l : List α}

theorem tally_set (h : l[i]? = some a) (b : α) : tally f (l.set i b) + f a = tally f l + f b := by
  induction l generalizing i with
  | nil => cases h
  | cons c l ih =>
    cases i with
    | zero =>
      obtain rfl : c = a := by simpa using h
      simp only [set_cons_zero, tally_cons]
      omega
    | succ i =>
      have := ih (i := i) (by simpa using h)
      simp only [set_cons_succ, tally_cons]
      omega

variable {b : α}

theorem tally_set_eq (h : l[i]? = some a) (hf : f b = f a) : tally f (l.set i b) = tally f l := by
  have := tally_set (f := f) h b
  omega

theorem le_tally (h : l[i]? = some a) : f a ≤ tally f l := by
  induction l generalizing i with
  | nil => cases h
  | cons c l ih =>
    cases i with
    | zero =>
      obtain rfl : c = a := by simpa using h
      exact Nat.le_add_right _ _
    | succ i =>
      exact (ih (i := i) (by simpa using h)).trans (Nat.le_add_left _ _)

theorem exists_of_tally_pos (h : 0 < tally f l) : ∃ (i : ℕ) (a : α), l[i]? = some a ∧ 0 < f a := by
  induction l with
  | nil => cases h
  | cons c l ih =>
    rcases Nat.eq_zero_or_pos (f c) with hc | hc
    · obtain ⟨i, a, hi, ha⟩ := ih (by simpa [hc] using h)
      exact ⟨i + 1, a, by simpa using hi, ha⟩
    · exact ⟨0, c, rfl, hc⟩

theorem tally_eq_zero (h : ∀ (i : ℕ) (a : α), l[i]? = some a → f a = 0) : tally f l = 0 := by
  by_contra hne
  obtain ⟨i, a, hi, ha⟩ := exists_of_tally_pos (Nat.pos_of_ne_zero hne)
  exact absurd (h i a hi) ha.ne'

/-! ## One agent -/

variable {P : ℕ → α → Prop}

/-- What holds of every other agent holds of all when one is replaced, if it holds of the new
one. -/
theorem forall_set_of_ne (h : ∀ (j : ℕ) x, i ≠ j → l[j]? = some x → P j x) (hb : P i b) :
    ∀ (j : ℕ) x, (l.set i b)[j]? = some x → P j x := by
  intro j x hx
  rw [getElem?_set] at hx
  split at hx
  · next hij =>
      split at hx
      · cases hx
        exact hij ▸ hb
      · cases hx
  · next hij => exact h j x hij hx

theorem forall_set (h : ∀ (j : ℕ) x, l[j]? = some x → P j x) (hb : P i b) :
    ∀ (j : ℕ) x, (l.set i b)[j]? = some x → P j x :=
  forall_set_of_ne (fun j x _ => h j x) hb

theorem forall_concat (h : ∀ (j : ℕ) x, l[j]? = some x → P j x) (ha : ∀ j, P j a) :
    ∀ (j : ℕ) x, (l ++ [a])[j]? = some x → P j x := by
  intro j x hx
  rw [getElem?_append] at hx
  split at hx
  · exact h j x hx
  · obtain rfl := mem_singleton.mp (mem_of_getElem? hx)
    exact ha j

theorem getElem?_set_of_some (h : l[i]? = some a) (b : α) : (l.set i b)[i]? = some b :=
  getElem?_set_self (List.getElem?_eq_some_iff.mp h).1

theorem getElem?_append_of_some (h : l[i]? = some a) (m : List α) : (l ++ m)[i]? = some a := by
  rw [getElem?_append_left (List.getElem?_eq_some_iff.mp h).1, h]

def countAt (f : α → ℕ) (l : List α) (j : ℕ) : ℕ := l[j]?.elim 0 f

theorem countAt_of_some {j : ℕ} (h : l[j]? = some a) : countAt f l j = f a := by
  rw [countAt, h, Option.elim_some]

theorem countAt_set (h : l[i]? = some a) (b : α) (j : ℕ) :
    countAt f (l.set i b) j = if i = j then f b else countAt f l j := by
  unfold countAt
  by_cases hij : i = j
  · subst hij
    rw [if_pos rfl, getElem?_set_of_some h, Option.elim_some]
  · rw [if_neg hij, getElem?_set_ne hij]

theorem countAt_set_eq (h : l[i]? = some a) (hf : f b = f a) (j : ℕ) :
    countAt f (l.set i b) j = countAt f l j := by
  rw [countAt_set h, hf]
  split
  · next hij => rw [← hij, countAt_of_some h]
  · rfl

theorem countAt_concat (h : f a = 0) (l : List α) (j : ℕ) :
    countAt f (l ++ [a]) j = countAt f l j := by
  unfold countAt
  rw [getElem?_append]
  split
  · rfl
  · next hj =>
      rw [getElem?_eq_none (not_lt.mp hj)]
      cases j - l.length with
      | zero => exact h
      | succ k => rfl

theorem exists_of_countAt_pos {j : ℕ} (h : 0 < countAt f l j) : ∃ a, l[j]? = some a ∧ 0 < f a := by
  unfold countAt at h
  cases hj : l[j]? with
  | none => simp [hj] at h
  | some a => exact ⟨a, rfl, by simpa [hj] using h⟩

end Olp
