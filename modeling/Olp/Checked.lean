import Mathlib.Data.List.Forall2

/-!
# Computations that may fail

A check that lets a computation go on, and what a computation that succeeded has passed:
every check held, and every part of it succeeded.
-/

namespace Olp

universe u

variable {ε : Type*} {α β : Type u}

def require (p : Prop) [Decidable p] (e : ε) : Except ε Unit := if p then .ok () else .error e

@[simp] theorem require_eq_ok {p : Prop} [Decidable p] {e : ε} {u : Unit} :
    require p e = .ok u ↔ p := by
  unfold require
  split <;> simp [*]

variable {b : β}

variable {f : α → Except ε β} {l : List α}

@[simp] theorem bind_eq_ok {x : Except ε α} : (x >>= f) = .ok b ↔ ∃ a, x = .ok a ∧ f a = .ok b := by
  cases x <;> simp [bind, Except.bind]

theorem bind_eq_error {x : Except ε α} {e : ε} :
    (x >>= f) = .error e ↔ x = .error e ∨ ∃ a, x = .ok a ∧ f a = .error e := by
  cases x <;> simp [bind, Except.bind]

theorem elim_eq_ok {e : ε} {o : Option α} {a : α} :
    (o.elim (.error e) .ok : Except ε α) = .ok a ↔ o = some a := by
  cases o <;> simp

theorem elim_eq_error {e e' : ε} {o : Option α} :
    (o.elim (.error e) .ok : Except ε α) = .error e' ↔ o = none ∧ e = e' := by
  cases o <;> simp

@[simp] theorem map_eq_ok {x : Except ε α} {f : α → β} :
    x.map f = .ok b ↔ ∃ a, x = .ok a ∧ f a = b := by
  cases x <;> simp [Except.map]

@[simp] theorem pure_eq_ok {a b : α} : (pure a : Except ε α) = .ok b ↔ a = b := by
  simp [pure, Except.pure]

@[simp] theorem throw_ne_ok {e : ε} {a : α} : (throw e : Except ε α) ≠ .ok a := by
  simp [throw, throwThe, MonadExceptOf.throw]

theorem forM_eq_ok {ε : Type} {f : α → Except ε PUnit} :
    l.forM f = .ok .unit ↔ ∀ a ∈ l, f a = .ok .unit := by
  induction l with
  | nil => exact iff_of_true rfl fun _ h => absurd h List.not_mem_nil
  | cons a l ih =>
    have hcons : (a :: l).forM f = f a >>= fun _ => l.forM f := rfl
    rw [hcons, bind_eq_ok, List.forall_mem_cons]
    constructor
    · rintro ⟨_, ha, hl⟩
      exact ⟨ha, ih.mp hl⟩
    · rintro ⟨ha, hl⟩
      exact ⟨_, ha, ih.mpr hl⟩

theorem mapM_eq_ok {l' : List β} : l.mapM f = .ok l' ↔ l.Forall₂ (fun a b => f a = .ok b) l' := by
  induction l generalizing l' with
  | nil => rw [List.mapM_nil, pure_eq_ok, List.forall₂_nil_left_iff, eq_comm]
  | cons a l ih =>
    simp only [List.mapM_cons, bind_eq_ok, pure_eq_ok, List.forall₂_cons_left_iff, ih]
    aesop

theorem mapM_again {f : α → Except ε α} {l' : List α} (hf : ∀ a b, f a = .ok b → f b = .ok b)
    (h : l.mapM f = .ok l') : l'.mapM f = .ok l' := by
  rw [mapM_eq_ok] at *
  induction h with
  | nil => exact .nil
  | cons hab _ ih => exact .cons (hf _ _ hab) ih

theorem mapM_eq_map {f : α → Option β} {g : α → β} (h : ∀ x ∈ l, f x = some (g x)) :
    l.mapM f = some (l.map g) := by
  induction l with
  | nil => rfl
  | cons x l ih =>
    rw [List.mapM_cons, h x List.mem_cons_self, ih fun y hy => h y (List.mem_cons_of_mem _ hy)]
    rfl

theorem foldlM_invariant {f : β → α → Except ε β} {P : β → Prop}
    (hf : ∀ b a b', P b → f b a = .ok b' → P b') {as : List α} {b' : β} (hb : P b)
    (h : as.foldlM f b = .ok b') : P b' := by
  induction as generalizing b with
  | nil =>
    obtain rfl : b = b' := by simpa using h
    exact hb
  | cons a as ih =>
    rw [List.foldlM_cons, bind_eq_ok] at h
    obtain ⟨c, hc, h⟩ := h
    exact ih (hf b a c hb hc) h

end Olp
