import Olp.Tally
import Olp.Admission.Pool

/-!
# Slots, tickets and wake-ups

What matters of a call for the slots and the lines is little: how many slots it holds, whether it
has a ticket for a slot (a place in a line, or a grant on its way), and which duty it has.  `Net`
is the pool seen that way, and `Move` says what a step can do to it.

`Net.Inv` carries the argument.  Slots are conserved: every slot taken is held by a permit, by a
call or by a grant in flight.  A waiter has exactly one ticket from the moment it joins its line to
the moment it takes a grant or withdraws.  And while a call waits in its line, each free slot has a
release that has not looked at the lines since it freed one.
-/

namespace Olp.Admission

open List Function

/-- What a call does under the lock after its operation on the lines. -/
inductive Role
  | none
  | joining
  | leaving
  deriving DecidableEq, Repr

/-- A call, as far as slots and lines are concerned. -/
structure Agent where
  /-- The slots in the call's hands. -/
  slots : ℕ
  /-- A grant in the channel of its waiter. -/
  granted : Bool
  /-- The waiter that the call hands its slot to. -/
  target : Option ℕ
  /-- The call has a ticket. -/
  joined : Bool
  /-- The line the call may still be in. -/
  cls : Option Class
  /-- The call has freed a slot and not yet looked for waiters since. -/
  freeing : Bool
  /-- The call waits for a grant, having found the pool full after it joined its line. -/
  selecting : Bool
  role : Role
  /-- The permit that the call acquires a slot for. -/
  entered : Option ℕ
  deriving DecidableEq, Repr

def Agent.idle : Agent := ⟨0, false, none, false, none, false, false, .none, none⟩

/-- Duties exclude each other. -/
structure Agent.Ok (a : Agent) : Prop where
  target : a.target ≠ none → a.joined = false
  role : a.role ≠ .none → a.selecting = false
  selecting : a.selecting = true → a.joined = true

structure Net where
  capacity : ℕ
  sem : ℕ
  waiting : ℤ
  mu : Option ℕ
  lines : Class → List ℕ
  permits : List PermitState
  agents : List Agent

def total (f : Class → ℕ) : ℕ := f .critical + f .high + f .normal + f .low

theorem total_update (f : List ℕ → ℕ) (lines : Class → List ℕ) (c : Class) (l : List ℕ) :
    total (fun d => f (update lines c l d)) + f (lines c) = total (fun d => f (lines d)) + f l := by
  cases c <;> simp [total, update] <;> omega

theorem le_total (f : Class → ℕ) (c : Class) : f c ≤ total f := by
  cases c <;> simp only [total] <;> omega

variable {i j : ℕ}

theorem two_le_total {lines : Class → List ℕ} {c d : Class} (hi : i ∈ lines c) (hj : j ∈ lines d)
    (hij : i ≠ j) : 2 ≤ total fun c => (lines c).length := by
  have h1 := length_pos_of_mem hi
  have h2 := length_pos_of_mem hj
  by_cases hcd : c = d
  · subst hcd
    have : 2 ≤ (lines c).length := by
      match hl : lines c with
      | [] => simp [hl] at hi
      | [x] => simp [hl] at hi hj; omega
      | x :: y :: l => simp
    exact this.trans (le_total (fun c => (lines c).length) c)
  · cases c <;> cases d <;> simp_all [total] <;> omega

/-! ## Moves -/

def Net.set (n : Net) (i : ℕ) (a : Agent) : Net := { n with agents := n.agents.set i a }

/-- What a step can do. -/
inductive Move (n : Net) : Net → Prop
  /-- A new call. -/
  | call : Move n { n with agents := n.agents ++ [.idle] }
  /-- A slot is taken. -/
  | take (i : ℕ) (a : Agent) (h : n.agents[i]? = some a) (room : n.sem < n.capacity) :
    Move n ({ n with sem := n.sem + 1 }.set i { a with slots := a.slots + 1, freeing := false })
  /-- No slot is free. -/
  | full (i : ℕ) (a : Agent) (selecting : Bool) (h : n.agents[i]? = some a)
      (room : ¬ n.sem < n.capacity) :
    Move n (n.set i { a with freeing := false, selecting })
  /-- A slot is freed. -/
  | free (i m : ℕ) (a : Agent) (h : n.agents[i]? = some a) (slots : a.slots = m + 1)
      (freeing : a.freeing = false) :
    Move n ({ n with sem := n.sem - 1 }.set i { a with slots := m, freeing := true })
  /-- Nobody is seen waiting. -/
  | unneeded (i : ℕ) (a : Agent) (h : n.agents[i]? = some a) (waiting : n.waiting = 0) :
    Move n (n.set i { a with freeing := false })
  /-- A waiter is appended to its line, under the lock. -/
  | join (i : ℕ) (a : Agent) (c : Class) (h : n.agents[i]? = some a) (mu : n.mu = none)
      (joined : a.joined = false) :
    Move n ({ n with mu := some i, lines := update n.lines c (n.lines c ++ [i]) }.set i
      { a with joined := true, cls := some c, role := .joining })
  /-- The waiter is counted, and the lock released. -/
  | counted (i : ℕ) (a : Agent) (h : n.agents[i]? = some a) (role : a.role = .joining) :
    Move n ({ n with waiting := n.waiting + 1, mu := none }.set i { a with role := .none })
  /-- The first waiter of a line is taken off it, under the lock. -/
  | pop (i : ℕ) (a : Agent) (c : Class) (w : ℕ) (rest : List ℕ) (h : n.agents[i]? = some a)
      (mu : n.mu = none) (line : n.lines c = w :: rest) (target : a.target = none) :
    Move n ({ n with mu := some i, lines := update n.lines c rest }.set i
      { a with target := some w, role := .leaving })
  /-- The waiter is uncounted, and the lock released. -/
  | left (i : ℕ) (a : Agent) (h : n.agents[i]? = some a) (role : a.role = .leaving) :
    Move n ({ n with waiting := n.waiting - 1, mu := none }.set i { a with role := .none })
  /-- The slot is granted to the waiter. -/
  | grant (i m w : ℕ) (a b : Agent) (h : n.agents[i]? = some a) (hw : n.agents[w]? = some b)
      (ne : i ≠ w) (target : a.target = some w) (slots : a.slots = m + 1)
      (granted : b.granted = false) :
    Move n ((n.set w { b with granted := true }).set i { a with target := none, slots := m })
  /-- A waiter takes its grant. -/
  | accept (i : ℕ) (a : Agent) (h : n.agents[i]? = some a) (granted : a.granted = true)
      (joined : a.joined = true) :
    Move n (n.set i { a with
      granted := false, joined := false, cls := none, selecting := false, slots := a.slots + 1 })
  /-- A waiter takes itself off its line, under the lock. -/
  | withdraw (i : ℕ) (a : Agent) (c : Class) (entered : Option ℕ) (h : n.agents[i]? = some a)
      (mu : n.mu = none) (mem : i ∈ n.lines c) (joined : a.joined = true)
      (kept : ∀ k, entered = some k → a.entered = some k) :
    Move n ({ n with mu := some i, lines := update n.lines c ((n.lines c).erase i) }.set i
      { a with joined := false, cls := none, selecting := false, role := .leaving, entered })
  /-- A waiter finds itself taken off its line. -/
  | miss (i : ℕ) (a : Agent) (c : Class) (h : n.agents[i]? = some a) (cls : a.cls = some c)
      (mem : i ∉ n.lines c) :
    Move n (n.set i { a with cls := none, selecting := false })
  /-- A waiter stops waiting. -/
  | expire (i : ℕ) (a : Agent) (h : n.agents[i]? = some a) :
    Move n (n.set i { a with selecting := false })
  /-- A call begins to acquire a slot for a queued permit. -/
  | enter (i k : ℕ) (a : Agent) (h : n.agents[i]? = some a) (queued : n.permits[k]? = some .queued)
      (alone : ∀ (j : ℕ) (b : Agent), n.agents[j]? = some b → b.entered ≠ some k) :
    Move n (n.set i { a with entered := some k })
  /-- A permit is made that holds the slot of the call. -/
  | permitHeld (i m : ℕ) (a : Agent) (h : n.agents[i]? = some a) (slots : a.slots = m + 1) :
    Move n ({ n with permits := n.permits ++ [PermitState.held] }.set i { a with slots := m })
  /-- A permit is made that is queued. -/
  | permitQueued : Move n { n with permits := n.permits ++ [PermitState.queued] }
  /-- The permit of a call gets the slot of the call. -/
  | store (i m k : ℕ) (a : Agent) (h : n.agents[i]? = some a) (slots : a.slots = m + 1)
      (entered : a.entered = some k) :
    Move n ({ n with permits := n.permits.set k .held }.set i
      { a with slots := m, entered := none })
  /-- The slot of a permit goes to a call. -/
  | seize (i k : ℕ) (a : Agent) (h : n.agents[i]? = some a) (held : n.permits[k]? = some .held) :
    Move n ({ n with permits := n.permits.set k .released }.set i { a with slots := a.slots + 1 })
  /-- A permit that holds no slot is released. -/
  | release (k : ℕ) (held : n.permits[k]? ≠ some .held) :
    Move n { n with permits := n.permits.set k .released }

/-! ## The invariant -/

def PermitState.slots : PermitState → ℕ
  | .held => 1
  | _ => 0

theorem PermitState.slots_of_ne (s : PermitState) (h : s ≠ .held) : s.slots = 0 := by
  cases s with
  | held => exact absurd rfl h
  | released => rfl
  | queued => rfl

def Net.held (n : Net) : ℕ := tally PermitState.slots n.permits

def Agent.carried (a : Agent) : ℕ := a.slots + a.granted.toNat

def Net.inTransit (n : Net) : ℕ := tally Agent.carried n.agents

def Agent.targets (j : ℕ) (a : Agent) : ℕ := if a.target = some j then 1 else 0

/-- The tickets of a waiter: its places in lines, its grant, and handoffs to it. -/
def Net.tickets (n : Net) (j : ℕ) : ℕ :=
  total (fun c => (n.lines c).count j) + countAt (fun a => a.granted.toNat) n.agents j +
    tally (Agent.targets j) n.agents

def Net.queue (n : Net) : ℕ := total fun c => (n.lines c).length

/-- The count of waiters agrees with the lines, but for the call that holds the lock. -/
def Net.Counted (n : Net) : Prop :=
  match n.mu with
  | none => n.waiting = n.queue
  | some i => ∃ a, n.agents[i]? = some a ∧
    (a.role = .joining ∧ (∃ c, i ∈ n.lines c) ∧ n.waiting + 1 = n.queue ∨
      a.role = .leaving ∧ n.waiting = n.queue + 1)

/-- A call waits in its line. -/
def Waits (agents : List Agent) (lines : Class → List ℕ) : Prop :=
  ∃ (j : ℕ) (a : Agent) (c : Class), agents[j]? = some a ∧ a.selecting = true ∧ j ∈ lines c

/-- The releases that have not looked for waiters since they freed a slot. -/
def Net.freeing (n : Net) : ℕ := tally (fun a => a.freeing.toNat) n.agents

structure Net.Inv (n : Net) : Prop where
  sem_le : n.sem ≤ n.capacity
  owned : n.sem = n.inTransit + n.held
  tickets : ∀ j, n.tickets j = countAt (fun a => a.joined.toNat) n.agents j
  lined : ∀ c, ∀ j ∈ n.lines c, ∃ a, n.agents[j]? = some a ∧ a.cls = some c
  role : ∀ (i : ℕ) a, n.agents[i]? = some a → a.role ≠ .none → n.mu = some i
  counted : n.Counted
  wake : Waits n.agents n.lines → n.capacity ≤ n.sem + n.freeing
  entered : ∀ (i : ℕ) a, n.agents[i]? = some a → ∀ k, a.entered = some k →
    ∃ s, n.permits[k]? = some s ∧ s ≠ .held
  alone : ∀ (i : ℕ) a, n.agents[i]? = some a → ∀ k, a.entered = some k →
    ∀ (j : ℕ) b, n.agents[j]? = some b → b.entered = some k → i = j

section Preserved

variable {n n' : Net}

theorem Move.sem_le (h : Move n n') (hn : n.sem ≤ n.capacity) : n'.sem ≤ n'.capacity := by
  cases h with
  | take _ _ _ room => exact room
  | free => exact (Nat.sub_le _ _).trans hn
  | _ => exact hn

/-- Slots change hands, and none is lost or made up. -/
theorem Move.owned (h : Move n n') (hinv : n.Inv) : n'.sem = n'.inTransit + n'.held := by
  have hn := hinv.owned
  unfold Net.inTransit Net.held at *
  cases h with
  | call => simpa [Agent.idle, Agent.carried] using hn
  | take i a h room =>
    have := tally_set (f := Agent.carried) h { a with slots := a.slots + 1, freeing := false }
    simp only [Net.set, Agent.carried] at *
    omega
  | free i m a h slots freeing =>
    have := tally_set (f := Agent.carried) h { a with slots := m, freeing := true }
    simp only [Net.set, Agent.carried] at *
    omega
  | grant i m w a b h hw ne target slots granted =>
    have hb := tally_set (f := Agent.carried) hw { b with granted := true }
    have hi : (n.agents.set w { b with granted := true })[i]? = some a := by
      rw [getElem?_set_ne ne.symm, h]
    have ha := tally_set (f := Agent.carried) hi { a with target := none, slots := m }
    simp only [Net.set, Agent.carried, granted, Bool.toNat_true, Bool.toNat_false] at *
    omega
  | accept i a h granted joined =>
    have := tally_set (f := Agent.carried) h { a with
      granted := false, joined := false, cls := none, selecting := false, slots := a.slots + 1 }
    simp only [Net.set, Agent.carried, granted, Bool.toNat_true, Bool.toNat_false] at *
    omega
  | permitHeld i m a h slots =>
    have := tally_set (f := Agent.carried) h { a with slots := m }
    simp only [Net.set, Agent.carried, tally_concat, PermitState.slots] at *
    omega
  | permitQueued => simpa [PermitState.slots] using hn
  | store i m k a h slots entered =>
    obtain ⟨s, hs, hne⟩ := hinv.entered i a h k entered
    have hp := tally_set (f := PermitState.slots) hs .held
    have := tally_set (f := Agent.carried) h { a with slots := m, entered := none }
    simp only [Net.set, Agent.carried, PermitState.slots] at *
    omega
  | seize i k a h held =>
    have hp := tally_set (f := PermitState.slots) held .released
    have := tally_set (f := Agent.carried) h { a with slots := a.slots + 1 }
    simp only [Net.set, Agent.carried, PermitState.slots] at *
    omega
  | release k held =>
    cases hs : n.permits[k]? with
    | none =>
      rwa [set_eq_of_length_le (List.getElem?_eq_none_iff.mp hs)]
    | some s =>
      have hp := tally_set (f := PermitState.slots) hs .released
      rw [s.slots_of_ne (by rintro rfl; exact held hs)] at hp
      simp only [PermitState.slots] at hp ⊢
      omega
  | _ =>
    rw [Net.set, tally_set_eq (by assumption)]
    · exact hn
    · rfl

variable {a b : Agent}

variable {lines : Class → List ℕ} {agents : List Agent}

theorem tickets_set (h : agents[i]? = some a) (hg : b.granted = a.granted)
    (ht : b.target = a.target) (hj : b.joined = a.joined)
    (hn : total (fun c => (lines c).count j) + countAt (fun a => a.granted.toNat) agents j +
      tally (Agent.targets j) agents = countAt (fun a => a.joined.toNat) agents j) :
    total (fun c => (lines c).count j) + countAt (fun a => a.granted.toNat) (agents.set i b) j +
      tally (Agent.targets j) (agents.set i b) =
        countAt (fun a => a.joined.toNat) (agents.set i b) j := by
  rw [countAt_set_eq h (by rw [hg]), countAt_set_eq h (by rw [hj]),
    tally_set_eq h (by simp only [Agent.targets, ht]), hn]

/-- A waiter has one ticket while it is joined, and none otherwise. -/
theorem Move.tickets (h : Move n n')
    (hn : ∀ j, n.tickets j = countAt (fun a => a.joined.toNat) n.agents j) (j : ℕ) :
    n'.tickets j = countAt (fun a => a.joined.toNat) n'.agents j := by
  have hnj := hn j
  unfold Net.tickets at *
  cases h with
  | call =>
    rw [countAt_concat, countAt_concat, tally_concat]
    · exact hnj
    · rfl
    · rfl
  | join i a c h mu joined =>
    have hl := total_update (fun l => l.count j) n.lines c (n.lines c ++ [i])
    have ht := tally_set (f := Agent.targets j) h
      { a with joined := true, cls := some c, role := .joining }
    simp only [Net.set, countAt_set h, Agent.targets, count_append, count_singleton,
      Bool.toNat_true, beq_iff_eq] at *
    by_cases hij : i = j
    · subst hij
      rw [countAt_of_some h, countAt_of_some h, joined, Bool.toNat_false] at hnj
      simp only [if_true] at *
      omega
    · simp only [hij, if_false] at *
      omega
  | pop i a c w rest h mu line target =>
    have hl := total_update (fun l => l.count j) n.lines c rest
    have ht := tally_set (f := Agent.targets j) h { a with target := some w, role := .leaving }
    dsimp only [Net.set]
    rw [countAt_set_eq h, countAt_set_eq h]
    · simp only [line, count_cons, Agent.targets, target, reduceCtorEq, if_false,
        Option.some.injEq, beq_iff_eq] at *
      omega
    · rfl
    · rfl
  | grant i m w a b h hw ne target slots granted =>
    have hi : (n.agents.set w { b with granted := true })[i]? = some a := by
      rw [getElem?_set_ne ne.symm, h]
    have ht := tally_set (f := Agent.targets j) hi { a with target := none, slots := m }
    rw [tally_set_eq hw (by rfl)] at ht
    dsimp only [Net.set]
    rw [countAt_set_eq hi, countAt_set_eq hi, countAt_set hw, countAt_set_eq hw]
    · simp only [Agent.targets, target, reduceCtorEq, if_false, Option.some.injEq,
        Bool.toNat_true] at *
      by_cases hwj : w = j
      · subst hwj
        rw [countAt_of_some hw, granted, Bool.toNat_false] at hnj
        simp only [if_true] at *
        omega
      · simp only [hwj, if_false] at *
        omega
    · rfl
    · rfl
    · rfl
  | accept i a h granted joined =>
    dsimp only [Net.set]
    rw [tally_set_eq h, countAt_set h, countAt_set h]
    · by_cases hij : i = j
      · subst hij
        rw [countAt_of_some h, countAt_of_some h, granted, joined, Bool.toNat_true] at hnj
        simp only [if_true, Bool.toNat_false]
        omega
      · rwa [if_neg hij, if_neg hij]
    · rfl
  | withdraw i a c entered h mu mem joined kept =>
    have hl := total_update (fun l => l.count j) n.lines c ((n.lines c).erase i)
    have hpos := count_pos_iff.mpr mem
    dsimp only [Net.set]
    rw [tally_set_eq h, countAt_set_eq h, countAt_set h]
    · simp only [count_erase, beq_iff_eq, Bool.toNat_false] at hl ⊢
      by_cases hij : i = j
      · subst hij
        rw [countAt_of_some h, countAt_of_some h, joined, Bool.toNat_true] at hnj
        rw [countAt_of_some h]
        simp only [if_true] at *
        omega
      · simp only [hij, if_false, Nat.sub_zero] at *
        omega
    · rfl
    · rfl
  | permitQueued => exact hnj
  | release k held => exact hnj
  | _ => refine tickets_set (by assumption) ?_ ?_ ?_ hnj <;> rfl

theorem Move.role (h : Move n n')
    (hn : ∀ (i : ℕ) a, n.agents[i]? = some a → a.role ≠ .none → n.mu = some i) :
    ∀ (i : ℕ) a, n'.agents[i]? = some a → a.role ≠ .none → n'.mu = some i := by
  have hfree : n.mu = none → ∀ (i : ℕ) a, n.agents[i]? = some a → a.role = .none := by
    intro hmu i a h
    by_contra hr
    exact absurd (hn i a h hr) (by simp [hmu])
  cases h with
  | call => exact forall_concat hn fun _ hr => absurd rfl hr
  | join i a c h mu joined | pop i a c w rest h mu line target
  | withdraw i a c entered h mu mem joined kept =>
    exact forall_set (fun j x hx hr => absurd (hfree mu j x hx) hr) fun _ => rfl
  | counted i a h role | left i a h role =>
    have hmu := hn i a h (by simp [role])
    refine forall_set_of_ne (fun j x hij hx hr => ?_) fun hr => absurd rfl hr
    exact absurd (Option.some.inj (hmu.symm.trans (hn j x hx hr))) hij
  | grant i m w a b h hw ne target slots granted =>
    exact forall_set (forall_set hn (hn w b hw)) (hn i a h)
  | permitQueued => exact hn
  | release k held => exact hn
  | _ =>
    have ha := hn _ _ ‹n.agents[_]? = some _›
    exact forall_set hn ha

theorem not_mem_of_tickets (h : n.tickets j = 0) (c : Class) : j ∉ n.lines c := by
  intro hj
  have h1 := count_pos_iff.mpr hj
  have h2 := le_total (fun c => (n.lines c).count j) c
  unfold Net.tickets at h
  omega

theorem mem_of_mem_update {c : Class} {l : List ℕ} (hl : ∀ j ∈ l, j ∈ lines c) :
    ∀ d, ∀ j ∈ update lines c l d, j ∈ lines d := by
  intro d j hj
  by_cases hdc : d = c
  · subst hdc
    rw [update_self] at hj
    exact hl j hj
  · rwa [update_of_ne hdc] at hj

theorem mem_of_mem_join {c d : Class} (hij : i ≠ j)
    (hj : j ∈ update lines c (lines c ++ [i]) d) : j ∈ lines d := by
  by_cases hdc : d = c
  · subst hdc
    simpa [Ne.symm hij] using hj
  · rwa [update_of_ne hdc] at hj

/-- A waiter is only in the line of its class. -/
theorem Move.lined (h : Move n n') (hinv : n.Inv) :
    ∀ c, ∀ j ∈ n'.lines c, ∃ a, n'.agents[j]? = some a ∧ a.cls = some c := by
  have hn := hinv.lined
  have ht := hinv.tickets
  have ht' := h.tickets ht
  have hother : ∀ (i : ℕ) (b : Agent) c j, j ∈ n.lines c → i ≠ j →
      ∃ x, (n.agents.set i b)[j]? = some x ∧ x.cls = some c := by
    intro i b c j hj hij
    obtain ⟨x, hx, hc⟩ := hn c j hj
    exact ⟨x, by rw [getElem?_set_ne hij, hx], hc⟩
  have hset : ∀ (i : ℕ) (a b : Agent), n.agents[i]? = some a → b.cls = a.cls →
      ∀ c, ∀ j ∈ n.lines c, ∃ x, (n.agents.set i b)[j]? = some x ∧ x.cls = some c := by
    intro i a b h hb c j hj
    by_cases hij : i = j
    · subst hij
      obtain ⟨x, hx, hc⟩ := hn c i hj
      cases h.symm.trans hx
      exact ⟨b, getElem?_set_of_some h b, hb.trans hc⟩
    · exact hother i b c j hj hij
  cases h with
  | call =>
    intro c j hj
    obtain ⟨x, hx, hc⟩ := hn c j hj
    exact ⟨x, getElem?_append_of_some hx _, hc⟩
  | join i a c h mu joined =>
    have hi : ∀ d, i ∉ n.lines d := by
      refine not_mem_of_tickets ?_
      rw [ht, countAt_of_some h, joined, Bool.toNat_false]
    intro d j hj
    dsimp only [Net.set] at hj ⊢
    by_cases hij : i = j
    · subst hij
      refine ⟨_, getElem?_set_of_some h _, ?_⟩
      by_contra hdc
      rw [update_of_ne (fun hd => hdc (congrArg some hd.symm))] at hj
      exact hi d hj
    · exact hother i _ d j (mem_of_mem_join hij hj) hij
  | pop i a c w rest h mu line target =>
    intro d j hj
    refine hset i a _ h ?_ d j (mem_of_mem_update (fun j hj => line ▸ mem_cons_of_mem w hj) d j hj)
    rfl
  | grant i m w a b h hw ne target slots granted =>
    intro c j hj
    dsimp only [Net.set]
    by_cases hij : i = j
    · subst hij
      obtain ⟨x, hx, hc⟩ := hn c i hj
      cases h.symm.trans hx
      exact ⟨_, getElem?_set_of_some (by rw [getElem?_set_ne ne.symm, h]) _, hc⟩
    · rw [getElem?_set_ne hij]
      refine hset w b _ hw ?_ c j hj
      rfl
  | accept i a h granted joined =>
    have hi := not_mem_of_tickets ((ht' i).trans (countAt_of_some (getElem?_set_of_some h _)))
    intro c j hj
    exact hother i _ c j hj (by rintro rfl; exact hi c hj)
  | withdraw i a c entered h mu mem joined kept =>
    have hi := not_mem_of_tickets ((ht' i).trans (countAt_of_some (getElem?_set_of_some h _)))
    intro d j hj
    exact hother i _ d j (mem_of_mem_update (fun _ => mem_of_mem_erase) d j hj)
      (by rintro rfl; exact hi d hj)
  | miss i a c h cls mem =>
    intro d j hj
    refine hother i _ d j hj ?_
    rintro rfl
    obtain ⟨x, hx, hc⟩ := hn d i hj
    cases h.symm.trans hx
    cases cls.symm.trans hc
    exact mem hj
  | permitQueued => exact hn
  | release k held => exact hn
  | _ =>
    refine hset _ _ _ ‹n.agents[_]? = some _› ?_
    rfl

theorem counted_set (h : n.agents[i]? = some a) (hb : b.role = a.role) (hn : n.Counted) :
    (n.set i b).Counted := by
  unfold Net.Counted at hn ⊢
  dsimp only [Net.set, Net.queue] at hn ⊢
  cases hmu : n.mu with
  | none =>
    rw [hmu] at hn
    exact hn
  | some k =>
    rw [hmu] at hn
    obtain ⟨x, hx, hc⟩ := hn
    by_cases hik : i = k
    · subst hik
      cases h.symm.trans hx
      exact ⟨b, getElem?_set_of_some h b, by rwa [hb]⟩
    · exact ⟨x, by rw [getElem?_set_ne hik, hx], hc⟩

/-- The count of waiters stays in step with the lines. -/
theorem Move.keeps_count (h : Move n n') (hn : n.Counted)
    (hr : ∀ (i : ℕ) a, n.agents[i]? = some a → a.role ≠ .none → n.mu = some i) :
    n'.Counted := by
  have hfree : n.mu = none → n.waiting = n.queue := by
    intro hmu
    unfold Net.Counted at hn
    rwa [hmu] at hn
  have hheld : ∀ (i : ℕ) a, n.agents[i]? = some a → a.role ≠ .none →
      (a.role = .joining ∧ n.waiting + 1 = n.queue ∨
        a.role = .leaving ∧ n.waiting = n.queue + 1) := by
    intro i a h hrole
    have hmu := hr i a h hrole
    unfold Net.Counted at hn
    rw [hmu] at hn
    obtain ⟨x, hx, hc⟩ := hn
    cases h.symm.trans hx
    exact hc.imp (fun hj => ⟨hj.1, hj.2.2⟩) id
  unfold Net.queue at hfree hheld
  cases h with
  | call =>
    unfold Net.Counted at hn ⊢
    cases hmu : n.mu with
    | none => exact hfree hmu
    | some k =>
      rw [hmu] at hn
      obtain ⟨x, hx, hc⟩ := hn
      exact ⟨x, getElem?_append_of_some hx _, hc⟩
  | join i a c h mu joined =>
    have hq := total_update length n.lines c (n.lines c ++ [i])
    have hw := hfree mu
    refine ⟨_, getElem?_set_of_some h _, .inl ⟨rfl, ⟨c, ?_⟩, ?_⟩⟩
    · dsimp only [Net.set]
      simp
    · simp only [Net.set, Net.queue, length_append, length_singleton] at *
      omega
  | counted i a h role =>
    rcases hheld i a h (by simp [role]) with ⟨-, hw⟩ | ⟨hl, -⟩
    · exact hw
    · rw [role] at hl
      cases hl
  | pop i a c w rest h mu line target =>
    have hq := total_update length n.lines c rest
    have hw := hfree mu
    refine ⟨_, getElem?_set_of_some h _, .inr ⟨rfl, ?_⟩⟩
    simp only [Net.set, Net.queue, line, length_cons] at *
    omega
  | left i a h role =>
    rcases hheld i a h (by simp [role]) with ⟨hj, -⟩ | ⟨-, hw⟩
    · rw [role] at hj
      cases hj
    · unfold Net.Counted
      dsimp only [Net.set, Net.queue]
      omega
  | grant i m w a b h hw ne target slots granted =>
    refine counted_set (a := a) ?_ rfl (counted_set hw ?_ hn)
    · dsimp only [Net.set]
      rw [getElem?_set_ne ne.symm, h]
    · rfl
  | withdraw i a c entered h mu mem joined kept =>
    have hq := total_update length n.lines c ((n.lines c).erase i)
    have hw := hfree mu
    have hpos := length_pos_of_mem mem
    refine ⟨_, getElem?_set_of_some h _, .inr ⟨rfl, ?_⟩⟩
    simp only [Net.set, Net.queue, length_erase_of_mem mem] at *
    omega
  | permitQueued => exact hn
  | release k held => exact hn
  | _ =>
    have hb := fun b => counted_set (b := b) ‹n.agents[_]? = some _›
    exact hb _ rfl hn

theorem waiting_pos (hn : n.Counted) (hok : ∀ (i : ℕ) a, n.agents[i]? = some a → a.Ok)
    (hw : Waits n.agents n.lines) : 0 < n.waiting := by
  obtain ⟨j, a, c, hj, hs, hmem⟩ := hw
  have hpos := length_pos_of_mem hmem
  have hle := le_total (fun c => (n.lines c).length) c
  unfold Net.Counted Net.queue at hn
  cases hmu : n.mu with
  | none =>
    rw [hmu] at hn
    omega
  | some i =>
    rw [hmu] at hn
    obtain ⟨x, hx, ⟨hrole, ⟨d, hd⟩, hc⟩ | ⟨-, hc⟩⟩ := hn
    · -- the call that joins its line does not wait yet, so there are two
      have hij : i ≠ j := by
        rintro rfl
        obtain rfl := Option.some.inj (hx.symm.trans hj)
        have := (hok i x hx).role (by simp [hrole])
        simp [this] at hs
      have := two_le_total hd hmem hij
      omega
    · omega

theorem waits_of_set {lines' : Class → List ℕ} (h : agents[i]? = some a)
    (hw : Waits (agents.set i b) lines') (hb : b.selecting = true → a.selecting = true)
    (hl : ∀ c, ∀ j ∈ lines' c, j ∈ lines c) : Waits agents lines := by
  obtain ⟨j, x, c, hj, hs, hmem⟩ := hw
  by_cases hij : i = j
  · subst hij
    rw [getElem?_set_of_some h] at hj
    cases hj
    exact ⟨i, a, c, h, hb hs, hl c i hmem⟩
  · rw [getElem?_set_ne hij] at hj
    exact ⟨j, x, c, hj, hs, hl c j hmem⟩

/-- A call that waits after a step has waited before it, or has just found the pool full. -/
theorem Move.waits (h : Move n n') (hok : ∀ (i : ℕ) a, n.agents[i]? = some a → a.Ok)
    (hw : Waits n'.agents n'.lines) : n'.capacity ≤ n'.sem ∨ Waits n.agents n.lines := by
  cases h with
  | full i a selecting h room => exact .inl (Nat.le_of_not_lt room)
  | call =>
    refine .inr ?_
    obtain ⟨j, x, c, hj, hs, hmem⟩ := hw
    rw [getElem?_append] at hj
    split at hj
    · exact ⟨j, x, c, hj, hs, hmem⟩
    · obtain rfl := mem_singleton.mp (mem_of_getElem? hj)
      cases hs
  | join i a c h mu joined =>
    have hsel : a.selecting = false := by
      by_contra hs
      have := (hok i a h).selecting (by simpa using hs)
      simp [joined] at this
    refine .inr ?_
    obtain ⟨j, x, d, hj, hs, hmem⟩ := hw
    dsimp only [Net.set] at hj hmem
    by_cases hij : i = j
    · subst hij
      rw [getElem?_set_of_some h] at hj
      cases hj
      simp [hsel] at hs
    · rw [getElem?_set_ne hij] at hj
      exact ⟨j, x, d, hj, hs, mem_of_mem_join hij hmem⟩
  | pop i a c w rest h mu line target =>
    exact .inr (waits_of_set h hw id (mem_of_mem_update fun j hj => line ▸ mem_cons_of_mem w hj))
  | withdraw i a c entered h mu mem joined kept =>
    exact .inr (waits_of_set h hw (fun hs => absurd hs (by simp))
      (mem_of_mem_update fun _ => mem_of_mem_erase))
  | grant i m w a b h hb ne target slots granted =>
    have hi : (n.agents.set w { b with granted := true })[i]? = some a := by
      rw [getElem?_set_ne ne.symm, h]
    exact .inr (waits_of_set hb (waits_of_set hi hw id fun _ _ => id) id fun _ _ => id)
  | permitQueued | release => exact .inr hw
  | _ => exact .inr (waits_of_set ‹n.agents[_]? = some _› hw (by simp) fun _ _ => id)

/-- While a call waits, each free slot has a release that will look for it. -/
theorem Move.wake (h : Move n n')
    (hn : Waits n.agents n.lines → n.capacity ≤ n.sem + n.freeing)
    (hc : n.Counted) (hok : ∀ (i : ℕ) a, n.agents[i]? = some a → a.Ok) :
    Waits n'.agents n'.lines → n'.capacity ≤ n'.sem + n'.freeing := by
  intro hw
  rcases h.waits hok hw with hfull | hbefore
  · exact hfull.trans (Nat.le_add_right _ _)
  have hb := hn hbefore
  unfold Net.freeing at *
  cases h with
  | call =>
    rw [tally_concat]
    exact hb
  | take i a h room =>
    have hf := tally_set (f := fun a => a.freeing.toNat) h
      { a with slots := a.slots + 1, freeing := false }
    have := Bool.toNat_le a.freeing
    simp only [Net.set, Bool.toNat_false] at *
    omega
  | full i a selecting h room =>
    dsimp only [Net.set]
    omega
  | free i m a h slots freeing =>
    have hf := tally_set (f := fun a => a.freeing.toNat) h
      { a with slots := m, freeing := true }
    simp only [Net.set, freeing, Bool.toNat_false, Bool.toNat_true] at *
    omega
  | unneeded i a h waiting =>
    have := waiting_pos hc hok hbefore
    omega
  | grant i m w a b h hb' ne target slots granted =>
    have hi : (n.agents.set w { b with granted := true })[i]? = some a := by
      rw [getElem?_set_ne ne.symm, h]
    dsimp only [Net.set]
    rw [tally_set_eq hi, tally_set_eq hb']
    · exact hb
    · rfl
    · rfl
  | permitQueued | release => exact hb
  | _ =>
    dsimp only [Net.set]
    rw [tally_set_eq ‹n.agents[_]? = some _›]
    · exact hb
    · rfl

/-- One call at a time acquires a slot for a permit. -/
theorem Move.alone (h : Move n n') (hinv : n.Inv) :
    ∀ (i : ℕ) a, n'.agents[i]? = some a → ∀ k, a.entered = some k →
      ∀ (j : ℕ) b, n'.agents[j]? = some b → b.entered = some k → i = j := by
  have hn := hinv.alone
  have hset : ∀ (i : ℕ) (a b : Agent), n.agents[i]? = some a →
      (∀ k, b.entered = some k → a.entered = some k) →
      ∀ (j : ℕ) x, (n.agents.set i b)[j]? = some x → ∀ k, x.entered = some k →
        ∃ y, n.agents[j]? = some y ∧ y.entered = some k := by
    intro i a b h hb
    exact forall_set (fun j x hx k hk => ⟨x, hx, hk⟩) fun k hk => ⟨a, h, hb k hk⟩
  have hback : ∀ agents : List Agent,
      (∀ (j : ℕ) x, agents[j]? = some x → ∀ k, x.entered = some k →
        ∃ y, n.agents[j]? = some y ∧ y.entered = some k) →
      ∀ (i : ℕ) a, agents[i]? = some a → ∀ k, a.entered = some k →
        ∀ (j : ℕ) b, agents[j]? = some b → b.entered = some k → i = j := by
    intro agents hy i a hi k hk j b hj hk'
    obtain ⟨x, hx, hxk⟩ := hy i a hi k hk
    obtain ⟨y, hy, hyk⟩ := hy j b hj k hk'
    exact hn i x hx k hxk j y hy hyk
  cases h with
  | call =>
    refine hback _ (forall_concat (fun j x hx k hk => ⟨x, hx, hk⟩) ?_)
    intro j k hk
    cases hk
  | enter i k a h queued alone =>
    refine forall_set_of_ne ?_ ?_
    · intro j x hij hx k' hk'
      refine forall_set (fun j' y hy hyk => hn j x hx k' hk' j' y hy hyk) ?_
      intro hk
      cases hk
      exact absurd hk' (alone j x hx)
    · intro k' hk'
      cases hk'
      exact forall_set (fun j y hy hyk => absurd hyk (alone j y hy)) fun _ => rfl
  | grant i m w a b h hw ne target slots granted =>
    refine hback _ (forall_set_of_ne ?_ fun k hk => ⟨a, h, hk⟩)
    intro j x _ hx
    exact hset w b { b with granted := true } hw (fun _ => id) j x hx
  | store i m k a h slots entered =>
    refine hback _ (hset i a _ h ?_)
    intro k hk
    cases hk
  | withdraw i a c entered h mu mem joined kept => exact hback _ (hset i a _ h kept)
  | permitQueued => exact hn
  | release k held => exact hn
  | _ =>
    refine hback _ (hset _ _ _ ‹n.agents[_]? = some _› ?_)
    exact fun _ => id

/-- A permit that a call acquires a slot for is not held. -/
theorem Move.entered (h : Move n n') (hinv : n.Inv) :
    ∀ (i : ℕ) a, n'.agents[i]? = some a → ∀ k, a.entered = some k →
      ∃ s, n'.permits[k]? = some s ∧ s ≠ .held := by
  have hn := hinv.entered
  have happend : ∀ s', ∀ (i : ℕ) a, n.agents[i]? = some a → ∀ k, a.entered = some k →
      ∃ s, (n.permits ++ [s'])[k]? = some s ∧ s ≠ .held := by
    intro s' i a h k hk
    obtain ⟨s, hs, hne⟩ := hn i a h k hk
    exact ⟨s, getElem?_append_of_some hs _, hne⟩
  have hrelease : ∀ k', ∀ (i : ℕ) a, n.agents[i]? = some a → ∀ k, a.entered = some k →
      ∃ s, (n.permits.set k' .released)[k]? = some s ∧ s ≠ .held := by
    intro k' i a h k hk
    obtain ⟨s, hs, hne⟩ := hn i a h k hk
    by_cases hkk : k' = k
    · subst hkk
      exact ⟨.released, getElem?_set_of_some hs _, by simp⟩
    · exact ⟨s, by rw [getElem?_set_ne hkk, hs], hne⟩
  cases h with
  | call => exact forall_concat hn fun j k hk => by cases hk
  | enter i k a h queued alone =>
    refine forall_set hn fun k' hk' => ?_
    cases hk'
    exact ⟨.queued, queued, by simp⟩
  | permitHeld i m a h slots => exact forall_set (happend .held) (happend .held i a h)
  | permitQueued => exact happend .queued
  | store i m k a h slots entered =>
    refine forall_set_of_ne (fun j x hij hx k' hk' => ?_) fun k' hk' => by cases hk'
    obtain ⟨s, hs, hne⟩ := hn j x hx k' hk'
    refine ⟨s, ?_, hne⟩
    dsimp only [Net.set]
    rw [getElem?_set_ne, hs]
    rintro rfl
    exact hij (hinv.alone i a h k entered j x hx hk')
  | seize i k a h held => exact forall_set (hrelease k) (hrelease k i a h)
  | withdraw i a c entered h mu mem joined kept =>
    exact forall_set hn fun k hk => hn i a h k (kept k hk)
  | release k held => exact hrelease k
  | grant i m w a b h hw ne target slots granted =>
    exact forall_set (forall_set hn (hn w b hw)) (hn i a h)
  | _ =>
    have hb := hn _ _ ‹n.agents[_]? = some _›
    exact forall_set hn hb

theorem Move.inv (h : Move n n') (hn : n.Inv)
    (hok : ∀ (i : ℕ) a, n.agents[i]? = some a → a.Ok) : n'.Inv where
  sem_le := h.sem_le hn.sem_le
  owned := h.owned hn
  tickets := h.tickets hn.tickets
  lined := h.lined hn
  role := h.role hn.role
  counted := h.keeps_count hn.counted hn.role
  wake := h.wake hn.wake hn.counted hok
  entered := h.entered hn
  alone := h.alone hn

end Preserved

end Olp.Admission
