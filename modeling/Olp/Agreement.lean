import Mathlib.Data.List.Infix

/-!
# Trees that agree outside a set of paths

A tree is given by the child that a key leads to and by what can be seen at a node without
going to a child.  Two trees agree outside a set of paths when every path that never meets
the set leads in both to nodes that look the same, or in both to none.
-/

namespace Olp

variable {N K σ : Type*} (child : N → K → Option N)

/-- The node a path leads to. -/
def walk : N → List K → Option N
  | a, [] => some a
  | a, k :: ks => (child a k).bind (walk · ks)

@[simp] theorem walk_nil (a : N) : walk child a [] = some a := rfl

@[simp] theorem walk_cons (a : N) (k : K) (ks : List K) :
    walk child a (k :: ks) = (child a k).bind (walk child · ks) := rfl

theorem walk_concat (a : N) (ks : List K) (k : K) :
    walk child a (ks ++ [k]) = (walk child a ks).bind (child · k) := by
  induction ks generalizing a with
  | nil => simp
  | cons j ks ih => simp [ih, Option.bind_assoc]

variable (shape : List K → N → σ) (M : List K → Prop)

/-- Two nodes, both reached by `base`, agree outside `M`. -/
def Agrees (base : List K) (a b : N) : Prop :=
  ∀ ks, (∀ js, js <+: ks → ¬M (base ++ js)) →
    (walk child a ks).map (shape (base ++ ks)) = (walk child b ks).map (shape (base ++ ks))

namespace Agrees

variable {child shape M} {base : List K} {a b c : N}

theorem refl (a : N) : Agrees child shape M base a a := fun _ _ => rfl

theorem trans (hab : Agrees child shape M base a b) (hbc : Agrees child shape M base b c) :
    Agrees child shape M base a c := fun ks h => (hab ks h).trans (hbc ks h)

theorem of_mem (h : M base) : Agrees child shape M base a b := by
  intro ks hks
  have := hks [] List.nil_prefix
  rw [List.append_nil] at this
  exact absurd h this

theorem of_children (h : shape base a = shape base b)
    (hc : ∀ k, ¬M (base ++ [k]) → Option.Rel (Agrees child shape M (base ++ [k]))
      (child a k) (child b k)) :
    Agrees child shape M base a b := by
  intro ks hks
  cases ks with
  | nil => simp [h]
  | cons k ks =>
    have hk : ¬M (base ++ [k]) := hks [k] (by simp)
    have hrel := hc k hk
    rw [walk_cons, walk_cons]
    generalize child a k = x at hrel ⊢
    generalize child b k = y at hrel ⊢
    cases hrel with
    | none => rfl
    | some hab =>
      have := hab ks fun js hjs => by
        have := hks (k :: js) ((List.prefix_cons_inj k).mpr hjs)
        simpa using this
      simpa using this

end Agrees

end Olp
