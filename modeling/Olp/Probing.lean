import Mathlib.Data.Fintype.Card

/-!
# Linear probing

A table of `n` slots, each empty or holding a key.  A search for a key starts at the
key's home slot and goes on to the next slot, cyclically, until it meets the key or an
empty slot.

`Sound` is the invariant of tables filled by such searches: a key lies where a search
for it meets no empty slot first, and in one slot only.  Under it a search finds a key
exactly when the table holds it (`Sound.probe_some_iff`), it ends because some slot is
empty (`probe_isSome`), and putting a new key where its search ended keeps the invariant
(`Sound.update`).
-/

namespace Olp.Probing

variable {κ : Type*} [DecidableEq κ]

/-- Search for a key from a slot: the slot where the search ends, at the key or at an
empty slot.  Nothing when the steps run out first. -/
def probe (n : Nat) (table : Nat → Option κ) (key : κ) : Nat → Nat → Option Nat
  | 0, _ => none
  | steps + 1, slot =>
    match table slot with
    | none => some slot
    | some held =>
      if held = key then some slot else probe n table key steps ((slot + 1) % n)

section

variable {n : Nat} {table : Nat → Option κ} {key : κ}

/-- What a search that ends has met: other keys only, then an empty slot or the key. -/
theorem probe_spec {steps slot stop : Nat} (hslot : slot < n)
    (h : probe n table key steps slot = some stop) :
    (table stop = none ∨ table stop = some key) ∧ stop < n ∧
      ∃ j, stop = (slot + j) % n ∧
        ∀ j' < j, ∃ held, held ≠ key ∧ table ((slot + j') % n) = some held := by
  induction steps generalizing slot with
  | zero => cases h
  | succ steps ih =>
    have hself : (slot + 0) % n = slot := Nat.mod_eq_of_lt hslot
    rw [probe] at h
    split at h
    · rename_i hempty
      cases h
      exact ⟨.inl hempty, hslot, 0, hself.symm, fun j' hj => absurd hj (Nat.not_lt_zero j')⟩
    · rename_i held hheld
      split at h
      · rename_i heq
        cases h
        exact ⟨.inr (heq ▸ hheld), hslot, 0, hself.symm,
          fun j' hj => absurd hj (Nat.not_lt_zero j')⟩
      · rename_i hother
        obtain ⟨hstop, hlt, j, rfl, hbefore⟩ :=
          ih (Nat.mod_lt _ (Nat.zero_lt_of_lt hslot)) h
        have hshift : ∀ i, ((slot + 1) % n + i) % n = (slot + (i + 1)) % n := by
          intro i
          rw [Nat.mod_add_mod, Nat.add_assoc, Nat.add_comm 1 i]
        refine ⟨hstop, hlt, j + 1, hshift j, ?_⟩
        intro j' hj'
        cases j' with
        | zero => exact ⟨held, hother, by rwa [hself]⟩
        | succ j' =>
          rw [← hshift]
          exact hbefore j' (by omega)

theorem probe_isSome_of_empty {steps slot j : Nat} (hslot : slot < n) (hj : j < steps)
    (hempty : table ((slot + j) % n) = none) : (probe n table key steps slot).isSome := by
  induction steps generalizing slot j with
  | zero => omega
  | succ steps ih =>
    rw [probe]
    split
    · rfl
    · rename_i held hheld
      split
      · rfl
      · cases j with
        | zero =>
          rw [Nat.add_zero, Nat.mod_eq_of_lt hslot, hheld] at hempty
          cases hempty
        | succ j =>
          refine ih (Nat.mod_lt _ (Nat.zero_lt_of_lt hslot)) (Nat.lt_of_succ_lt_succ hj) ?_
          rwa [Nat.mod_add_mod, Nat.add_assoc, Nat.add_comm 1 j]

theorem probe_isSome {slot e : Nat} (hslot : slot < n) (he : e < n) (hempty : table e = none) :
    (probe n table key n slot).isSome := by
  refine probe_isSome_of_empty hslot (Nat.mod_lt (e + n - slot) (Nat.zero_lt_of_lt hslot)) ?_
  rw [Nat.add_mod_mod, show slot + (e + n - slot) = e + n by omega, Nat.add_mod_right,
    Nat.mod_eq_of_lt he, hempty]

end

/-- Every key lies where the search from its home meets no empty slot first, and in one
slot only. -/
structure Sound (n : Nat) (home : κ → Nat) (table : Nat → Option κ) : Prop where
  reached : ∀ i < n, ∀ key, table i = some key → ∃ j, i = (home key + j) % n ∧
    ∀ j' < j, table ((home key + j') % n) ≠ none
  once : ∀ i < n, ∀ i' < n, ∀ key, table i = some key → table i' = some key → i = i'

namespace Sound

variable {n : Nat} {home : κ → Nat} {table : Nat → Option κ} (h : Sound n home table)

include h

section Search

variable {key : κ} {steps stop : Nat} (hhome : home key < n)
  (hp : probe n table key steps (home key) = some stop)

include hhome hp

theorem probe_some_iff : table stop = some key ↔ ∃ i < n, table i = some key := by
  obtain ⟨hstop, hlt, j, hj, hbefore⟩ := probe_spec hhome hp
  refine ⟨fun hheld => ⟨stop, hlt, hheld⟩, ?_⟩
  rintro ⟨i, hi, hheld⟩
  obtain ⟨j₀, rfl, hfull⟩ := h.reached i hi key hheld
  rcases Nat.lt_trichotomy j j₀ with hless | rfl | hmore
  · exact hstop.resolve_left (hj ▸ hfull j hless)
  · rw [hj, hheld]
  · obtain ⟨held, hne, hother⟩ := hbefore j₀ hmore
    rw [hheld] at hother
    exact absurd (Option.some.inj hother).symm hne

/-- Putting a key where the search for it ended at an empty slot keeps the invariant. -/
theorem update (hempty : table stop = none) :
    Sound n home (Function.update table stop (some key)) := by
  obtain ⟨-, hlt, j, hj, hbefore⟩ := probe_spec hhome hp
  have habsent : ∀ i < n, table i ≠ some key := by
    intro i hi hheld
    have := (h.probe_some_iff hhome hp).2 ⟨i, hi, hheld⟩
    rw [hempty] at this
    cases this
  -- slots only become occupied
  have hkeep : ∀ i, table i ≠ none → Function.update table stop (some key) i ≠ none := by
    intro i hi
    by_cases his : i = stop
    · rw [his, Function.update_self]
      exact Option.some_ne_none key
    · rwa [Function.update_of_ne his]
  constructor
  · intro i hi k hk
    by_cases his : i = stop
    · subst his
      rw [Function.update_self] at hk
      cases hk
      refine ⟨j, hj, fun j' hj' => hkeep _ ?_⟩
      obtain ⟨held, -, hheld⟩ := hbefore j' hj'
      rw [hheld]
      exact Option.some_ne_none held
    · rw [Function.update_of_ne his] at hk
      obtain ⟨j₀, hi₀, hfull⟩ := h.reached i hi k hk
      exact ⟨j₀, hi₀, fun j' hj' => hkeep _ (hfull j' hj')⟩
  · intro i hi i' hi' k hk hk'
    by_cases his : i = stop <;> by_cases his' : i' = stop
    · rw [his, his']
    · subst his
      rw [Function.update_self] at hk
      rw [Function.update_of_ne his'] at hk'
      exact absurd (Option.some.inj hk ▸ hk') (habsent i' hi')
    · subst his'
      rw [Function.update_self] at hk'
      rw [Function.update_of_ne his] at hk
      exact absurd (Option.some.inj hk' ▸ hk) (habsent i hi)
    · rw [Function.update_of_ne his] at hk
      rw [Function.update_of_ne his'] at hk'
      exact h.once i hi i' hi' k hk hk'

end Search

theorem exists_empty {keys : List κ} (hlen : keys.length < n)
    (hkeys : ∀ i < n, ∀ key, table i = some key → key ∈ keys) : ∃ e < n, table e = none := by
  by_contra! hfull
  have hmaps : Set.MapsTo table (Finset.range n) (keys.map some).toFinset := by
    intro i hi
    rw [Finset.mem_coe, Finset.mem_range] at hi
    obtain ⟨key, hkey⟩ := Option.ne_none_iff_exists'.1 (hfull i hi)
    rw [Finset.mem_coe, List.mem_toFinset, List.mem_map]
    exact ⟨key, hkeys i hi key hkey, hkey.symm⟩
  have hcard : (keys.map some).toFinset.card < (Finset.range n).card := by
    refine (List.toFinset_card_le _).trans_lt ?_
    rwa [List.length_map, Finset.card_range]
  obtain ⟨i, hi, i', hi', hne, hsame⟩ :=
    Finset.exists_ne_map_eq_of_card_lt_of_maps_to hcard hmaps
  rw [Finset.mem_range] at hi hi'
  obtain ⟨key, hkey⟩ := Option.ne_none_iff_exists'.1 (hfull i hi)
  exact hne (h.once i hi i' hi' key hkey (hsame ▸ hkey))

end Sound

end Olp.Probing
