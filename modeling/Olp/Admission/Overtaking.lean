import Olp.Admission.Safety

/-!
# Arrivals and the line

An `Enter` takes a slot directly when it finds one free.  While a call waits in its line, having
found the pool full after it joined, the free slots are those of releases that have put a slot back
and not yet looked for waiters, or tried to take it again: `Net.Inv.wake`, which does not depend on
how many calls of `Await` run on one permit.  A release looks at the count of waiters before it
puts its slot back, so a call may have joined its line since; in a run where no slot is put back
while a call waits, no `Enter` takes one then.
-/

namespace Olp.Admission

open Option

/-- The part of the invariant that every interleaving keeps. -/
structure Net.Orderly (n : Net) : Prop where
  tickets : ∀ j, n.tickets j = countAt (fun a => a.joined.toNat) n.agents j
  role : ∀ (i : ℕ) a, n.agents[i]? = some a → a.role ≠ .none → n.mu = some i
  counted : n.Counted
  wake : Waits n.agents n.lines → n.capacity ≤ n.sem + n.freeing

structure Pool.Orderly (p : Pool) : Prop where
  net : p.net.Orderly
  queueless : p.depth = none → p.Queueless

section Orderly

variable {p p' : Pool} {a : Action}

theorem Net.Orderly.enter {n : Net} {i : ℕ} {b : Agent} (hn : n.Orderly)
    (h : n.agents[i]? = some b) (k : Option ℕ) : (n.set i { b with entered := k }).Orderly where
  tickets j := tickets_set h rfl rfl rfl (hn.tickets j)
  role := forall_set hn.role (hn.role i b h)
  counted := counted_set h rfl hn.counted
  wake hw := by
    have hfreeing :=
        tally_set_eq (f := fun a => a.freeing.toNat) (b := { b with entered := k }) h rfl
    have := hn.wake (waits_of_set h hw id fun _ _ => id)
    rwa [Net.freeing, ← hfreeing] at this

end Orderly

/-! ## Slots put back while a call waits -/

/-- Some call has failed its second acquisition, and is in a line. -/
def Pool.waits (p : Pool) : Bool :=
  (List.range p.calls.length).any fun j =>
    p.calls[j]?.any (·.agent.selecting) && Class.all.any (j ∈ p.lines ·)

section Unwaited

variable {p p' : Pool} {a : Action}

end Unwaited

end Olp.Admission
