import Mathlib.Data.Finmap
import Mathlib.Algebra.Order.BigOperators.Group.Finset

/-!
# Finite tables and their totals

A finite table from keys to rows, and the total of a weight over its rows.  The
scripts and the ledgers keep such totals incrementally, one row at a time; the
lemmas here say what writing and removing rows does to the exact total, so that
an incremental total can be compared with it.
-/

namespace Olp

abbrev Table (κ α : Type*) := Finmap fun _ : κ => α

namespace Table

variable {κ α M : Type*} [DecidableEq κ]

theorem keys_insert (t : Table κ α) (k : κ) (a : α) :
    (Finmap.insert k a t).keys = insert k t.keys := by
  ext j
  simp [Finmap.mem_keys, Finmap.mem_insert]

variable {a : α} {k : κ} {t : Table κ α}

theorem lookup_insert_eq (t : Table κ α) (k j : κ) (a : α) :
    (Finmap.insert k a t).lookup j = if j = k then some a else t.lookup j := by
  split
  · rename_i h
    subst h
    exact Finmap.lookup_insert _
  · rename_i h
    exact Finmap.lookup_insert_of_ne _ h

theorem lookup_erase_eq (t : Table κ α) (k j : κ) :
    (Finmap.erase k t).lookup j = if j = k then none else t.lookup j := by
  split
  · rename_i h
    subst h
    exact Finmap.lookup_erase _ _
  · rename_i h
    exact Finmap.lookup_erase_ne h

theorem insert_ne_empty (t : Table κ α) (k : κ) (a : α) : Finmap.insert k a t ≠ ∅ := fun e => by
  have : (Finmap.insert k a t).lookup k = none := by rw [e, Finmap.lookup_empty]
  rw [Finmap.lookup_insert] at this
  exact absurd this (by simp)

theorem eq_empty_of_keys (h : t.keys = ∅) : t = ∅ :=
  Finmap.ext_lookup fun k => by
    have : k ∉ t := fun hk => by simpa [h] using Finmap.mem_keys.2 hk
    rw [Finmap.lookup_eq_none.2 this, Finmap.lookup_empty]

/-! ## Totals -/

section Total

variable [AddCommMonoid M] (w : κ → α → M)

def total (t : Table κ α) : M := ∑ k ∈ t.keys, (t.lookup k).elim 0 (w k)

@[simp] theorem total_empty : total w (∅ : Table κ α) = 0 := by simp [total]

theorem total_insert_of_notMem (a : α) (h : k ∉ t) :
    total w (Finmap.insert k a t) = w k a + total w t := by
  have hk : k ∉ t.keys := fun hk => h (Finmap.mem_keys.1 hk)
  rw [total, keys_insert, Finset.sum_insert hk, Finmap.lookup_insert, total]
  congr 1
  refine Finset.sum_congr rfl fun j hj => ?_
  have hne : j ≠ k := fun e => hk (e ▸ hj)
  rw [Finmap.lookup_insert_of_ne _ hne]

theorem insert_erase_self (h : t.lookup k = some a) : Finmap.insert k a (Finmap.erase k t) = t :=
  Finmap.ext_lookup fun j => by
    rw [lookup_insert_eq, lookup_erase_eq]
    split
    · rename_i e
      rw [e, h]
    · rfl

theorem total_eq_add_erase (h : t.lookup k = some a) :
    total w t = w k a + total w (Finmap.erase k t) := by
  conv_lhs => rw [← insert_erase_self h]
  exact total_insert_of_notMem w a (by simp [Finmap.mem_erase])

theorem erase_of_notMem (h : k ∉ t) : Finmap.erase k t = t :=
  Finmap.ext_lookup fun j => by
    rw [lookup_erase_eq]
    split
    · rename_i e
      rw [e, Finmap.lookup_eq_none.2 h]
    · rfl

theorem total_insert (t : Table κ α) (k : κ) (a : α) :
    total w (Finmap.insert k a t) = w k a + total w (Finmap.erase k t) := by
  rw [total_eq_add_erase w (Finmap.lookup_insert t)]
  congr 2
  refine Finmap.ext_lookup fun j => ?_
  rw [lookup_erase_eq, lookup_erase_eq, lookup_insert_eq]
  split <;> rfl

theorem total_eq_sum {s : Finset κ} (h : t.keys ⊆ s) :
    total w t = ∑ k ∈ s, (t.lookup k).elim 0 (w k) :=
  Finset.sum_subset h fun k _ hk => by
    rw [Finmap.lookup_eq_none.2 fun hm => hk (Finmap.mem_keys.2 hm)]
    rfl

theorem total_eq_of_elim {t' : Table κ α}
    (h : ∀ k, (t'.lookup k).elim 0 (w k) = (t.lookup k).elim 0 (w k)) :
    total w t' = total w t := by
  rw [total_eq_sum w (Finset.subset_union_left : t'.keys ⊆ t'.keys ∪ t.keys),
    total_eq_sum w (Finset.subset_union_right : t.keys ⊆ t'.keys ∪ t.keys)]
  exact Finset.sum_congr rfl fun k _ => h k

end Total

/-! ## Removing several rows -/

def eraseAll (t : Table κ α) (ks : List κ) : Table κ α := ks.foldl (fun t k => Finmap.erase k t) t

@[simp] theorem eraseAll_nil (t : Table κ α) : t.eraseAll [] = t := rfl

@[simp] theorem eraseAll_cons (t : Table κ α) (k : κ) (ks : List κ) :
    t.eraseAll (k :: ks) = eraseAll (Finmap.erase k t) ks := rfl

theorem lookup_eraseAll (t : Table κ α) (ks : List κ) (j : κ) :
    (t.eraseAll ks).lookup j = if j ∈ ks then none else t.lookup j := by
  induction ks generalizing t with
  | nil => simp
  | cons k ks ih =>
    rw [eraseAll_cons, ih, lookup_erase_eq]
    by_cases h : j ∈ ks
    · simp [h]
    · by_cases e : j = k <;> simp [h, e]

theorem total_eraseAll_le (w : κ → α → Nat) (t : Table κ α) (ks : List κ) :
    total w (t.eraseAll ks) ≤ total w t := by
  induction ks generalizing t with
  | nil => exact le_rfl
  | cons k ks ih =>
    refine (ih (Finmap.erase k t)).trans ?_
    cases h : t.lookup k with
    | none => rw [erase_of_notMem (Finmap.lookup_eq_none.1 h)]
    | some a =>
      rw [total_eq_add_erase w h]
      exact Nat.le_add_left _ _

/-! ## Rows of several kinds -/

section Weigh

variable {β : κ → Type*} (w : ∀ k, β k → Nat)

/-- The total of a weight over the rows of a table whose rows are of the kind of their key. -/
def weigh (t : Finmap β) : Nat := ∑ k ∈ t.keys, (t.lookup k).elim 0 (w k)

theorem weigh_eq_sum {t : Finmap β} {s : Finset κ} (h : t.keys ⊆ s) :
    weigh w t = ∑ k ∈ s, (t.lookup k).elim 0 (w k) :=
  Finset.sum_subset h fun k _ hk => by
    rw [Finmap.lookup_eq_none.2 fun hm => hk (Finmap.mem_keys.2 hm)]
    rfl

theorem weigh_insert (t : Finmap β) (k : κ) (a : β k) :
    weigh w (t.insert k a) + (t.lookup k).elim 0 (w k) = weigh w t + w k a := by
  have hkeys : (t.insert k a).keys = insert k t.keys := by
    ext j
    simp [Finmap.mem_keys, Finmap.mem_insert]
  have hrest : ∑ j ∈ (insert k t.keys).erase k, ((t.insert k a).lookup j).elim 0 (w j) =
      ∑ j ∈ (insert k t.keys).erase k, (t.lookup j).elim 0 (w j) := by
    refine Finset.sum_congr rfl fun j hj => ?_
    rw [Finmap.lookup_insert_of_ne _ (Finset.ne_of_mem_erase hj)]
  rw [weigh_eq_sum w (s := insert k t.keys) hkeys.subset,
    weigh_eq_sum w (Finset.subset_insert k t.keys),
    ← Finset.add_sum_erase _ _ (Finset.mem_insert_self k t.keys),
    ← Finset.add_sum_erase _ _ (Finset.mem_insert_self k t.keys), hrest, Finmap.lookup_insert,
    Option.elim_some]
  omega

variable {w} in
theorem weigh_insert_of_zero (t : Finmap β) {k : κ} (h : ∀ a, w k a = 0) (a : β k) :
    weigh w (t.insert k a) = weigh w t := by
  have := weigh_insert w t k a
  cases ht : t.lookup k <;> simpa [ht, h] using this

end Weigh

end Table

end Olp
