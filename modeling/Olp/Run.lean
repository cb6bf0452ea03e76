import Mathlib.Logic.Basic

/-!
# Runs

A system that takes one event at a time: the state a list of events leads to, what it
means that every event of a run meets a condition in the state it finds, and the rule
by which an invariant of one step is an invariant of every run.
-/

namespace Olp

variable {S E : Type*} (step : S → E → S)

def run (s : S) (es : List E) : S := es.foldl step s

@[simp] theorem run_nil (s : S) : run step s [] = s := rfl

@[simp] theorem run_cons (s : S) (e : E) (es : List E) :
    run step s (e :: es) = run step (step s e) es := rfl

theorem run_append (s : S) (es fs : List E) :
    run step s (es ++ fs) = run step (run step s es) fs := List.foldl_append

/-- Every event of a run meets a condition in the state it finds. -/
def Throughout (G : S → E → Prop) : S → List E → Prop
  | _, [] => True
  | s, e :: es => G s e ∧ Throughout G (step s e) es

instance Throughout.decidable (G : S → E → Prop) [∀ s e, Decidable (G s e)] :
    ∀ s es, Decidable (Throughout step G s es)
  | _, [] => inferInstanceAs (Decidable True)
  | s, e :: es =>
    have := Throughout.decidable G (step s e) es
    inferInstanceAs (Decidable (G s e ∧ Throughout step G (step s e) es))

variable {step} {G : S → E → Prop} {P : S → Prop} {s : S}

theorem throughout_append {es fs : List E} :
    Throughout step G s (es ++ fs) ↔
      Throughout step G s es ∧ Throughout step G (run step s es) fs := by
  induction es generalizing s with
  | nil => simp [Throughout]
  | cons e es ih => simp [Throughout, ih, and_assoc]

/-- What every step under a condition keeps holds after a run whose steps meet it. -/
theorem run_invariant (hstep : ∀ s e, P s → G s e → P (step s e)) {es : List E}
    (h : Throughout step G s es) (hs : P s) : P (run step s es) := by
  induction es generalizing s with
  | nil => exact hs
  | cons e es ih => exact ih h.2 (hstep s e hs h.1)

/-- What every step keeps holds after every run. -/
theorem run_induction (hstep : ∀ s e, P s → P (step s e)) (es : List E) (hs : P s) :
    P (run step s es) := by
  induction es generalizing s with
  | nil => exact hs
  | cons e es ih => exact ih (hstep s e hs)

end Olp
