import Olp.CodeTokens.Ledger

/-!
# The windows account for the open attempts

Each transaction is taken in one piece, as it commits.  What it does to an attempt is one of a few
moves (`Move`); what it does to the windows keeps the reserved total of each the sum of what its
open attempts have reserved there.
-/

namespace Olp.CodeTokens

open Olp.Locking List Option

variable {t t' : Store} {id : Id} {b : Id} {p : Period} {start : ℤ}

/-! ## Rows and statements -/

section Rows

variable (t) (id b) (j : Id) (p) (start)

theorem attempt_insert (a : Attempt) :
    Store.attempt (t.insert (.attempt id) a) j = if j = id then some a else t.attempt j := by
  split
  · rename_i h
    subst h
    exact Finmap.lookup_insert t
  · rename_i h
    exact Finmap.lookup_insert_of_ne t (by simpa using h)

variable (w : Window)

@[simp] theorem attempt_insert_window :
    Store.attempt (t.insert (.window b p start) w) j = t.attempt j :=
  Finmap.lookup_insert_of_ne t (by simp)

@[simp] theorem attempt_insert_budget (x : Budget) :
    Store.attempt (t.insert (.budget b) x) j = t.attempt j :=
  Finmap.lookup_insert_of_ne t (by simp)

theorem window_insert (b' : Id) (p' : Period) (start' : ℤ) :
    Store.window (t.insert (.window b p start) w) b' p' start' =
      if b' = b ∧ p' = p ∧ start' = start then some w else t.window b' p' start' := by
  split
  · rename_i h
    obtain ⟨rfl, rfl, rfl⟩ := h
    exact Finmap.lookup_insert t
  · rename_i h
    exact Finmap.lookup_insert_of_ne t (by simpa using h)

@[simp] theorem window_insert_attempt (a : Attempt) :
    Store.window (t.insert (.attempt j) a) b p start = t.window b p start :=
  Finmap.lookup_insert_of_ne t (by simp)

@[simp] theorem window_insert_budget (x : Budget) :
    Store.window (t.insert (.budget j) x) b p start = t.window b p start :=
  Finmap.lookup_insert_of_ne t (by simp)

@[simp] theorem budget_insert_attempt (a : Attempt) :
    Store.budget (t.insert (.attempt j) a) b = t.budget b :=
  Finmap.lookup_insert_of_ne t (by simp)

@[simp] theorem budget_insert_window :
    Store.budget (t.insert (.window b p start) w) j = t.budget j :=
  Finmap.lookup_insert_of_ne t (by simp)

end Rows

@[simp] theorem exec_lockBudget {r : Option Budget} :
    Exec t (lockBudget id) r t' ↔ (r = t.budget id ∨ r = none) ∧ t' = t := exec_lockRow

@[simp] theorem exec_lockWindow {r : Option Window} :
    Exec t (lockWindow b p start) r t' ↔ (r = t.window b p start ∨ r = none) ∧ t' = t :=
  exec_lockRow

@[simp] theorem exec_lockAttempt {r : Option Attempt} :
    Exec t (lockAttempt id) r t' ↔ (r = t.attempt id ∨ r = none) ∧ t' = t := exec_lockRow

variable {u : Unit} {x : Budget}

@[simp] theorem exec_writeBudget :
    Exec t (writeBudget id x) u t' ↔ t' = t.insert (.budget id) x := exec_writeRow

@[simp] theorem exec_writeWindow {w : Window} :
    Exec t (writeWindow b p start w) u t' ↔ t' = t.insert (.window b p start) w := exec_writeRow

variable {a : Attempt}

@[simp] theorem exec_writeAttempt :
    Exec t (writeAttempt id a) u t' ↔ t' = t.insert (.attempt id) a := exec_writeRow

/-! ## What is owed to a window -/

/-- The tokens that reservations hold in a window. -/
def tokensAt (b : Id) (p : Period) (start : ℤ) (rs : List Reservation) : ℕ :=
  tally (fun r => if r.budget = b ∧ r.period = p ∧ r.start = start then r.tokens else 0) rs

/-- The tokens that an attempt holds in a window, until it is settled or aborted. -/
def Attempt.owes (b : Id) (p : Period) (start : ℤ) (a : Attempt) : ℕ :=
  if a.state.isOpen then tokensAt b p start a.reservations else 0

/-- What a row adds to the sum for a window. -/
def owed (b : Id) (p : Period) (start : ℤ) : (k : Key) → Row k → ℕ
  | .attempt _, a => Attempt.owes b p start a
  | .window _ _ _, _ => 0
  | .budget _, _ => 0

/-- The reserved total of a window. -/
def Store.reservedAt (t : Store) (b : Id) (p : Period) (start : ℤ) : ℕ :=
  ((t.window b p start).map Window.reserved).getD 0

/-- The sum over the attempts of what they hold in a window. -/
abbrev Store.owedAt (t : Store) (b : Id) (p : Period) (start : ℤ) : ℕ :=
  Table.weigh (owed b p start) t

def Accounted (t : Store) : Prop := ∀ b p start, t.reservedAt b p start = t.owedAt b p start

theorem owedAt_insert_window (t : Store) (b' : Id) (p' : Period) (start' : ℤ) (w : Window) :
    Store.owedAt (t.insert (.window b' p' start') w) b p start = t.owedAt b p start :=
  Table.weigh_insert_of_zero (w := owed b p start) t (k := .window b' p' start') (fun _ => rfl) w

theorem owedAt_insert_budget (t : Store) (b' : Id) (x : Budget) :
    Store.owedAt (t.insert (.budget b') x) b p start = t.owedAt b p start :=
  Table.weigh_insert_of_zero (w := owed b p start) t (k := .budget b') (fun _ => rfl) x

theorem owedAt_insert_attempt (t : Store) (id : Id) (a : Attempt) (b : Id) (p : Period)
    (start : ℤ) :
    Store.owedAt (t.insert (.attempt id) a) b p start +
        ((t.attempt id).map (Attempt.owes b p start)).getD 0 =
      t.owedAt b p start + a.owes b p start := by
  refine Eq.trans (congrArg (_ + ·) ?_) (Table.weigh_insert (owed b p start) t (.attempt id) a)
  unfold Store.attempt
  cases t.lookup (.attempt id) <;> rfl

theorem tokensAt_append (rs rs' : List Reservation) :
    tokensAt b p start (rs ++ rs') = tokensAt b p start rs + tokensAt b p start rs' := by
  induction rs with
  | nil => simp [tokensAt]
  | cons r rs ih =>
    simp only [tokensAt, cons_append, tally_cons] at ih ⊢
    omega

/-! ## Settlement -/

/-- The windows lose what the reservations hold, and nothing else changes. -/
theorem settleAll_exec {n : ℕ} {rs : List Reservation} (h : Exec t (settleAll n rs) u t') :
    (∀ id, t'.attempt id = t.attempt id) ∧
      ∀ b p start, t'.owedAt b p start = t.owedAt b p start ∧
        t'.reservedAt b p start + tokensAt b p start rs = t.reservedAt b p start := by
  induction rs generalizing t with
  | nil =>
    obtain ⟨-, rfl⟩ := exec_pure.mp h
    exact ⟨fun _ => rfl, fun _ _ _ => ⟨rfl, rfl⟩⟩
  | cons r rs ih =>
    simp only [settleAll, exec_bind, exec_lockWindow] at h
    obtain ⟨row, t₁, ⟨hrow, rfl⟩, h⟩ := h
    cases row with
    | none => exact absurd h exec_fail
    | some w =>
      have hw : Store.window t₁ r.budget r.period r.start = some w := found hrow
      simp only [exec_bind, exec_require, exec_writeWindow] at h
      obtain ⟨-, t₂, ⟨hle, rfl⟩, -, t₃, ⟨-, rfl⟩, -, t₄, rfl, h⟩ := h
      obtain ⟨hattempt, hwindows⟩ := ih h
      refine ⟨fun id => (hattempt id).trans (attempt_insert_window ..), fun b p start => ?_⟩
      obtain ⟨howed, hreserved⟩ := hwindows b p start
      refine ⟨howed.trans (owedAt_insert_window ..), ?_⟩
      simp only [Store.reservedAt, window_insert] at hreserved
      simp only [tokensAt, tally_cons] at hreserved ⊢
      split at hreserved
      · rename_i hk
        obtain ⟨rfl, rfl, rfl⟩ := hk
        simp only [map_some, getD_some] at hreserved
        simp only [Store.reservedAt, hw, and_self, if_true, map_some, getD_some]
        omega
      · rename_i hk
        rw [if_neg fun e => hk ⟨e.1.symm, e.2.1.symm, e.2.2.symm⟩]
        simp only [Store.reservedAt]
        omega

/-! ## Reservation -/

/-- The windows of the reservations are within the maxima of their budgets. -/
def Within (t : Store) (rs : List Reservation) : Prop :=
  ∀ r ∈ rs, ∃ w x n, t.window r.budget r.period r.start = some w ∧ t.budget r.budget = some x ∧
    x.maximum r.period = some n ∧ w.measured + w.reserved ≤ n

/-- A charge is to a window of a budget as it is in the table. -/
def Charge.Fits (t : Store) (c : Charge) : Prop :=
  t.budget c.budget = some c.scope ∧ c.scope.maximum c.period = some c.maximum

/-- What a reservation does: the row of its attempt goes from `a` to `a'`. -/
structure Reserves (id : Id) (a a' : Attempt) (t t' : Store) : Prop where
  row : t'.attempt id = some a'
  grows : ∃ rs, a' = { a with reservations := a.reservations ++ rs }
  others : ∀ j, j ≠ id → t'.attempt j = t.attempt j
  budgets : ∀ j, t'.budget j = t.budget j
  within : Within t a.reservations → Within t' a'.reservations
  accounted : Accounted t → Accounted t'

theorem Reserves.refl (ha : t.attempt id = some a) : Reserves id a a t t where
  row := ha
  grows := ⟨[], by rw [append_nil]⟩
  others _ _ := rfl
  budgets _ := rfl
  within h := h
  accounted h := h

theorem Reserves.trans {a a' a'' : Attempt} {t'' : Store} (h : Reserves id a a' t t')
    (h' : Reserves id a' a'' t' t'') : Reserves id a a'' t t'' where
  row := h'.row
  grows := by
    obtain ⟨rs, rfl⟩ := h.grows
    obtain ⟨rs', rfl⟩ := h'.grows
    exact ⟨rs ++ rs', by rw [append_assoc]⟩
  others j hj := (h'.others j hj).trans (h.others j hj)
  budgets j := (h'.budgets j).trans (h.budgets j)
  within hin := h'.within (h.within hin)
  accounted hacc := h'.accounted (h.accounted hacc)

theorem insert_window_reserves (ha : t.attempt id = some a) {new : Bool}
    (h : Exec t (Prog.insertRow (.window b p start) ({} : Window) : Tx Bool) new t') :
    Reserves id a a t t' := by
  rcases exec_insertRow.mp h with ⟨-, hnone, rfl⟩ | ⟨-, rfl⟩
  · refine ⟨(attempt_insert_window ..).trans ha, ⟨[], by rw [append_nil]⟩,
      fun j _ => attempt_insert_window .., fun j => budget_insert_window .., ?_, ?_⟩
    · intro hin r hr
      obtain ⟨w, x, n, hw, hx, hn, hle⟩ := hin r hr
      refine ⟨w, x, n, ?_, (budget_insert_window ..).trans hx, hn, hle⟩
      rw [window_insert, if_neg]
      · exact hw
      · rintro ⟨rfl, rfl, rfl⟩
        rw [Store.window, hnone] at hw
        cases hw
    · intro hacc b' p' start'
      rw [owedAt_insert_window, ← hacc]
      unfold Store.reservedAt
      rw [window_insert]
      split
      · rename_i hk
        obtain ⟨rfl, rfl, rfl⟩ := hk
        rw [Store.window, hnone]
        rfl
      · rfl
  · exact .refl ha

/-- One window is charged, and the reservation is put down. -/
theorem charge_reserves {w : Window} {tokens n : ℕ} (ha : t.attempt id = some a)
    (hopen : a.state.isOpen = true) (hw : t.window b p start = some w) (hx : t.budget b = some x)
    (hn : x.maximum p = some n) (hle : w.measured + w.reserved + tokens ≤ n) :
    Reserves id a { a with reservations := a.reservations ++ [⟨b, p, start, tokens⟩] } t
      ((t.insert (.window b p start)
        ({ w with reserved := w.reserved + tokens } : Window)).insert (.attempt id)
      ({ a with reservations := a.reservations ++ [⟨b, p, start, tokens⟩] } : Attempt)) where
  row := by rw [attempt_insert, if_pos rfl]
  grows := ⟨_, rfl⟩
  others j hj := by rw [attempt_insert, if_neg hj, attempt_insert_window]
  budgets j := by rw [budget_insert_attempt, budget_insert_window]
  within hin r hr := by
    rw [window_insert_attempt, budget_insert_attempt, budget_insert_window, window_insert]
    split
    · rename_i hk
      obtain ⟨rfl, rfl, rfl⟩ := hk
      exact ⟨_, x, n, rfl, hx, hn, by simpa [Nat.add_assoc] using hle⟩
    · rename_i hk
      rcases mem_append.mp hr with hr | hr
      · exact hin r hr
      · obtain rfl := mem_singleton.mp hr
        exact absurd ⟨rfl, rfl, rfl⟩ hk
  accounted hacc b' p' start' := by
    have howed := owedAt_insert_attempt
      (t.insert (.window b p start) ({ w with reserved := w.reserved + tokens } : Window)) id
      { a with reservations := a.reservations ++ [⟨b, p, start, tokens⟩] } b' p' start'
    rw [attempt_insert_window, ha, owedAt_insert_window] at howed
    have hb := hacc b' p' start'
    simp only [map_some, getD_some, Attempt.owes, hopen, if_true, tokensAt_append]
      at howed
    simp only [Store.reservedAt, window_insert_attempt, window_insert] at hb ⊢
    simp only [tokensAt, tally_cons, tally_nil] at howed
    split
    · rename_i hk
      obtain ⟨rfl, rfl, rfl⟩ := hk
      rw [hw] at hb
      simp only [and_self, if_true, map_some, getD_some] at howed hb ⊢
      omega
    · rename_i hk
      rw [if_neg fun e => hk ⟨e.1.symm, e.2.1.symm, e.2.2.symm⟩] at howed
      omega

variable {m : Admission}

theorem reserveAll_exec {tokens : ℕ} {cs : List Charge} (ha : t.attempt m.id = some a)
    (hopen : a.state.isOpen = true) (hfits : ∀ c ∈ cs, c.Fits t)
    (h : Exec t (m.reserveAll tokens cs a) u t') : ∃ a', Reserves m.id a a' t t' := by
  induction cs generalizing t a with
  | nil =>
    obtain ⟨-, rfl⟩ := exec_pure.mp h
    exact ⟨a, .refl ha⟩
  | cons c cs ih =>
    simp only [Admission.reserveAll, exec_bind, exec_look, exec_require, exec_lockWindow] at h
    obtain ⟨-, t₁, rfl, -, t₂, ⟨-, rfl⟩, new, t₃, hinsert, row, t₄, ⟨hrow, rfl⟩, h⟩ := h
    have hnew := insert_window_reserves ha hinsert
    obtain ⟨hx, hn⟩ := hfits c mem_cons_self
    cases row with
    | none => exact absurd h exec_fail
    | some w =>
      have hw : Store.window t₄ c.budget c.period (c.period.start m.now) = some w := found hrow
      simp only [exec_bind, exec_require, exec_writeWindow, exec_writeAttempt] at h
      obtain ⟨-, t₅, ⟨hle, rfl⟩, -, t₆, rfl, -, t₇, rfl, h⟩ := h
      have hcharge := charge_reserves hnew.row hopen hw ((hnew.budgets _).trans hx) hn hle
      have hboth := hnew.trans hcharge
      obtain ⟨a', hrest⟩ := ih hboth.row hopen (fun d hd => by
        have := hfits d (mem_cons_of_mem c hd)
        exact ⟨(hboth.budgets _).trans this.1, this.2⟩) h
      exact ⟨a', hboth.trans hrest⟩

variable {l : List (Id × Budget)}

theorem lockBudgets_exec {ids : List Id} (h : Exec t (m.lockBudgets ids) l t') :
    t' = t ∧ ∀ y ∈ l, t.budget y.1 = some y.2 := by
  induction ids generalizing t t' l with
  | nil =>
    obtain ⟨rfl, rfl⟩ := exec_pure.mp h
    exact ⟨rfl, by simp⟩
  | cons i ids ih =>
    simp only [Admission.lockBudgets, exec_bind, exec_lockBudget] at h
    obtain ⟨row, t₁, ⟨hrow, rfl⟩, rest, t₂, hrest, h⟩ := h
    obtain ⟨rfl, hall⟩ := ih hrest
    cases row with
    | none =>
      obtain ⟨rfl, rfl⟩ := exec_pure.mp h
      exact ⟨rfl, hall⟩
    | some x =>
      have hx : Store.budget t₂ i = some x := found hrow
      dsimp only at h
      split at h
      · obtain ⟨rfl, rfl⟩ := exec_pure.mp h
        exact ⟨rfl, forall_mem_cons.mpr ⟨hx, hall⟩⟩
      · obtain ⟨rfl, rfl⟩ := exec_pure.mp h
        exact ⟨rfl, hall⟩

theorem charges_fit (h : ∀ y ∈ l, t.budget y.1 = some y.2) : ∀ c ∈ charges l, c.Fits t := by
  intro c hc
  obtain ⟨⟨i, x⟩, hmem, hc⟩ := mem_flatMap.mp hc
  obtain ⟨q, -, hc⟩ := mem_filterMap.mp hc
  obtain ⟨n, hn, rfl⟩ := map_eq_some_iff.mp hc
  exact ⟨h _ hmem, hn⟩

theorem reserve_exec (ha : t.attempt m.id = some a) (hopen : a.state.isOpen = true)
    (h : Exec t (m.reserve a) u t') :
    ∃ a', Reserves m.id a a' t t' := by
  simp only [Admission.reserve, exec_bind, exec_look] at h
  obtain ⟨seen, t₁, rfl, l, t₂, hl, h⟩ := h
  obtain ⟨rfl, hall⟩ := lockBudgets_exec hl
  split at h
  · obtain ⟨-, rfl⟩ := exec_pure.mp h
    exact ⟨a, .refl ha⟩
  · simp only [exec_bind, exec_require] at h
    obtain ⟨-, t₃, ⟨-, rfl⟩, h⟩ := h
    exact reserveAll_exec ha hopen (charges_fit hall) h

variable {o : Outcome}

/-- An admission adds one prepared attempt, within its windows, and changes no other. -/
theorem admission_exec (h : Exec t m.admission o t') :
    o = .admitted ∧ t.attempt m.id = none ∧
      (∃ a, t'.attempt m.id = some a ∧ a.state = .prepared ∧ Within t' a.reservations) ∧
      (∀ j, j ≠ m.id → t'.attempt j = t.attempt j) ∧ (Accounted t → Accounted t') := by
  simp only [Admission.admission, exec_bind, exec_require] at h
  obtain ⟨-, t₁, ⟨-, rfl⟩, new, t₂, hinsert, -, t₃, ⟨rfl, rfl⟩, _, t₄, hreserve, h⟩ := h
  obtain ⟨rfl, rfl⟩ := exec_pure.mp h
  rcases exec_insertRow.mp hinsert with ⟨-, hnone, rfl⟩ | ⟨e, -⟩
  · have hrow : Store.attempt (t₁.insert (.attempt m.id) m.row) m.id = some m.row := by
      rw [attempt_insert, if_pos rfl]
    obtain ⟨a, ha⟩ := reserve_exec hrow rfl hreserve
    refine ⟨rfl, hnone, ⟨a, ha.row, ?_, ha.within ?_⟩, ?_, fun hacc => ha.accounted ?_⟩
    · obtain ⟨rs, rfl⟩ := ha.grows
      rfl
    · intro r hr
      exact absurd hr not_mem_nil
    · intro j hj
      rw [ha.others j hj, attempt_insert, if_neg hj]
    · -- the new row owes nothing yet
      intro b p start
      have howed := owedAt_insert_attempt t₁ m.id m.row b p start
      rw [Store.attempt, hnone] at howed
      have hzero : m.row.owes b p start = 0 := rfl
      simp only [map_none, getD_none, hzero, Nat.add_zero] at howed
      rw [howed, ← hacc]
      simp [Store.reservedAt]
  · cases e

/-! ## What a transaction does to an attempt -/

/-- A call that commits with an outcome moves the row of an attempt. -/
inductive Move (id : Id) : Call → Outcome → Option Attempt → Option Attempt → Prop
  | admission {m : Admission} {a : Attempt} (hid : m.id = id) (ha : a.state = .prepared) :
      Move id (.admission m) .admitted none (some a)
  | dispatch {a : Attempt} (ha : a.state = .prepared) :
      Move id (.dispatch id) .dispatched (some a) (some { a with state := .uncertain })
  | uncertain {now u} {a a' : Attempt} (ha : a.state.isOpen = true) (ha' : a'.state = .uncertain) :
      Move id (.settle now id u false) .uncertain (some a) (some a')
  | settled {now u} {a a' : Attempt} (ha : a.state.isOpen = true) (ha' : a'.state.isOpen = false)
      (hs : a'.state ≠ .aborted) : Move id (.settle now id u false) .settled (some a) (some a')
  | aborted {now u} {a a' : Attempt} (ha : a.state = .prepared) (ha' : a'.state = .aborted) :
      Move id (.settle now id u true) .aborted (some a) (some a')

variable {now : ℤ} {row : Option Attempt}

theorem Move.isOpen {u : Usage} {abort : Bool} {o : Outcome}
    (h : Move id (.settle now id u abort) o (some a) row) : a.state.isOpen = true := by
  cases h with
  | uncertain ha _ => exact ha
  | settled ha _ _ => exact ha
  | aborted ha _ => rw [ha]; rfl

theorem markDispatched_exec (h : Exec t (markDispatched id) o t') :
    ∃ a, t.attempt id = some a ∧ a.state = .prepared ∧ o = .dispatched ∧
      t' = t.insert (.attempt id) ({ a with state := .uncertain } : Attempt) := by
  simp only [markDispatched, exec_bind, exec_lockAttempt] at h
  obtain ⟨row, t₁, ⟨hrow, rfl⟩, h⟩ := h
  cases row with
  | none => exact absurd h exec_fail
  | some a =>
    simp only [exec_bind, exec_require, exec_writeAttempt] at h
    obtain ⟨-, t₂, ⟨ha, rfl⟩, -, t₃, rfl, h⟩ := h
    obtain ⟨rfl, rfl⟩ := exec_pure.mp h
    exact ⟨a, found hrow, ha, rfl, rfl⟩

/-- What a settlement that commits has done. -/
theorem settle_exec {u : Usage} {abort : Bool} (h : Exec t (settle now id u abort) o t') :
    ∃ a, t.attempt id = some a ∧
      (a.state.isOpen = false ∧ a.repeats u abort = true ∧ o = .unchanged ∧ t' = t ∨
        ∃ a' t₁, Move id (.settle now id u abort) o (some a) (some a') ∧
          t' = t₁.insert (.attempt id) a' ∧
          (a'.state.isOpen = true ∧ a'.reservations = a.reservations ∧ t₁ = t ∨
            a'.state.isOpen = false ∧
              Exec t (settleAll (u.total.getD 0).toNat a.reservations) () t₁)) := by
  unfold settle at h
  cases hv : u.validate with
  | some e =>
    rw [hv] at h
    exact absurd h exec_fail
  | none =>
    rw [hv] at h
    simp only [exec_bind, exec_lockAttempt] at h
    obtain ⟨row, t₁, ⟨hrow, rfl⟩, h⟩ := h
    cases row with
    | none => exact absurd h exec_fail
    | some a =>
      refine ⟨a, found hrow, ?_⟩
      dsimp only at h
      split at h
      · rename_i hclosed
        simp only [exec_bind, exec_require] at h
        obtain ⟨-, t₂, ⟨hrep, rfl⟩, h⟩ := h
        obtain ⟨rfl, rfl⟩ := exec_pure.mp h
        exact .inl ⟨by simpa using hclosed, hrep, rfl, rfl⟩
      · rename_i hopen
        rw [not_not] at hopen
        simp only [exec_bind, exec_require] at h
        obtain ⟨-, t₂, ⟨habort, rfl⟩, h⟩ := h
        split at h
        · rename_i hnone
          simp only [exec_bind, exec_writeAttempt] at h
          obtain ⟨-, t₃, rfl, h⟩ := h
          obtain ⟨rfl, rfl⟩ := exec_pure.mp h
          obtain rfl : abort = false := by simpa using hnone.2
          exact .inr ⟨_, t₂, .uncertain hopen rfl, rfl, .inl ⟨rfl, rfl, rfl⟩⟩
        · simp only [exec_bind, exec_writeAttempt] at h
          obtain ⟨_, t₃, hall, -, t₄, rfl, h⟩ := h
          obtain ⟨rfl, rfl⟩ := exec_pure.mp h
          refine .inr ⟨_, t₃, ?_, rfl, .inr ⟨?_, hall⟩⟩
          · cases abort with
            | true =>
              refine .aborted ?_ rfl
              simpa using habort
            | false =>
              refine .settled hopen ?_ ?_
              · simp only [Attempt.closed, Bool.false_eq_true, if_false]
                split <;> rfl
              · simp only [Attempt.closed, Bool.false_eq_true, if_false]
                split <;> decide
          · simp only [Attempt.closed]
            split
            · rfl
            · split <;> rfl

theorem saveBudget_exec (h : Exec t (saveBudget id x) o t') :
    o = .configured ∧ ∃ y, t' = t.insert (.budget id) y := by
  simp only [saveBudget, exec_bind] at h
  obtain ⟨new, t₁, hinsert, h⟩ := h
  rcases exec_insertRow.mp hinsert with ⟨rfl, -, rfl⟩ | ⟨rfl, rfl⟩
  · simp only [if_true] at h
    obtain ⟨rfl, rfl⟩ := exec_pure.mp h
    exact ⟨rfl, x, rfl⟩
  · simp only [Bool.false_eq_true, if_false, exec_bind, exec_lockBudget] at h
    obtain ⟨row, t₂, ⟨-, rfl⟩, h⟩ := h
    cases row with
    | none => exact absurd h exec_fail
    | some old =>
      simp only [exec_bind, exec_writeBudget] at h
      obtain ⟨-, t₃, rfl, h⟩ := h
      obtain ⟨rfl, rfl⟩ := exec_pure.mp h
      exact ⟨rfl, _, rfl⟩

/-- What can be seen of an attempt in the log of commits. -/
def settles (id : Id) : Call × Outcome → Bool
  | (.settle _ i _ _, o) => i = id && (o = .settled || o = .aborted)
  | _ => false

def aborts (id : Id) : Call × Outcome → Bool
  | (.settle _ i _ _, o) => i = id && o = .aborted
  | _ => false

def dispatches (id : Id) : Call × Outcome → Bool
  | (.dispatch i, _) => i = id
  | _ => false

variable {c : Call}

/-- A call that commits moves an attempt, or leaves its row and says nothing of it. -/
theorem body_exec (h : Exec t c.body o t') (id : Id) :
    Move id c o (t.attempt id) (t'.attempt id) ∨
      t'.attempt id = t.attempt id ∧ settles id (c, o) = false ∧ aborts id (c, o) = false ∧
        dispatches id (c, o) = false := by
  cases c with
  | admission m =>
    obtain ⟨rfl, hnone, ⟨a, ha, hs, -⟩, hothers, -⟩ := admission_exec h
    by_cases hid : m.id = id
    · subst hid
      rw [hnone, ha]
      exact .inl (.admission rfl hs)
    · exact .inr ⟨hothers id (Ne.symm hid), rfl, rfl, rfl⟩
  | dispatch i =>
    obtain ⟨a, ha, hs, rfl, rfl⟩ := markDispatched_exec h
    rw [attempt_insert]
    by_cases hid : id = i
    · subst hid
      rw [ha, if_pos rfl]
      exact .inl (.dispatch hs)
    · rw [if_neg hid]
      exact .inr ⟨rfl, rfl, rfl, by simpa [dispatches] using Ne.symm hid⟩
  | settle now i u abort =>
    obtain ⟨a, ha, ⟨-, -, rfl, rfl⟩ | ⟨a', t₁, hmove, rfl, hrest⟩⟩ := settle_exec h
    · exact .inr ⟨rfl, by simp [settles], by simp [aborts], rfl⟩
    · rw [attempt_insert]
      by_cases hid : id = i
      · subst hid
        rw [ha, if_pos rfl]
        exact .inl hmove
      · rw [if_neg hid]
        refine .inr ⟨?_, by simp [settles, Ne.symm hid], by simp [aborts, Ne.symm hid], rfl⟩
        rcases hrest with ⟨-, -, rfl⟩ | ⟨-, hall⟩
        · rfl
        · exact (settleAll_exec hall).1 id
  | configure i x =>
    obtain ⟨rfl, y, rfl⟩ := saveBudget_exec h
    exact .inr ⟨attempt_insert_budget .., rfl, rfl, rfl⟩

/-- Every call that commits keeps the windows accounted for. -/
theorem accounted_exec (h : Exec t c.body o t') (hacc : Accounted t) : Accounted t' := by
  cases c with
  | admission m => exact (admission_exec h).2.2.2.2 hacc
  | dispatch i =>
    obtain ⟨a, ha, hs, rfl, rfl⟩ := markDispatched_exec h
    intro b p start
    have howed := owedAt_insert_attempt t i { a with state := .uncertain } b p start
    rw [ha] at howed
    simp only [map_some, getD_some, Attempt.owes, hs, State.isOpen, if_true] at howed
    have hb := hacc b p start
    simp only [Store.reservedAt, window_insert_attempt] at hb ⊢
    omega
  | settle now i u abort =>
    obtain ⟨a, ha, ⟨-, -, rfl, rfl⟩ | ⟨a', t₁, hmove, rfl, hrest⟩⟩ := settle_exec h
    · exact hacc
    · have hopen := hmove.isOpen
      intro b p start
      have howed := owedAt_insert_attempt t₁ i a' b p start
      have hb := hacc b p start
      simp only [Store.reservedAt, window_insert_attempt] at hb ⊢
      rcases hrest with ⟨hopen', hrs, rfl⟩ | ⟨hclosed, hall⟩
      · rw [ha] at howed
        simp only [map_some, getD_some, Attempt.owes, hopen, hopen', hrs, if_true]
          at howed
        omega
      · obtain ⟨hattempt, hwindows⟩ := settleAll_exec hall
        obtain ⟨howed', hreserved⟩ := hwindows b p start
        rw [hattempt, ha] at howed
        simp only [map_some, getD_some, Attempt.owes, hopen, hclosed, if_true,
          Bool.false_eq_true, if_false] at howed
        simp only [Store.reservedAt] at hreserved
        omega
  | configure i x =>
    obtain ⟨rfl, y, rfl⟩ := saveBudget_exec h
    intro b p start
    rw [owedAt_insert_budget, ← hacc, Store.reservedAt, window_insert_budget]
    rfl

/-! ## Runs -/

/-- What the log says of an attempt is what its row shows. -/
structure History (id : Id) (row : Option Attempt) (log : List (Call × Outcome)) : Prop where
  closed : (log.filter (settles id)).length = if row.any (fun a => !a.state.isOpen) then 1 else 0
  aborted : (∃ e ∈ log, aborts id e = true) → ∃ a, row = some a ∧ a.state = .aborted
  dispatched : (∃ e ∈ log, dispatches id e = true) →
    ∃ a, row = some a ∧ a.state ≠ .prepared ∧ a.state ≠ .aborted

theorem exists_concat {α : Type*} {P : α → Prop} {l : List α} {e : α} :
    (∃ x ∈ l ++ [e], P x) ↔ (∃ x ∈ l, P x) ∨ P e := by
  simp [or_and_right, exists_or]

theorem length_filter_concat {α : Type*} (f : α → Bool) (l : List α) (e : α) :
    ((l ++ [e]).filter f).length = (l.filter f).length + if f e then 1 else 0 := by
  cases h : f e <;> simp [h]

variable {log : List (Call × Outcome)}

variable {e : Call × Outcome} {row' : Option Attempt}

/-- A log that goes on, with the row after it. -/
theorem History.next (h : History id row log)
    (hclosed : ((if row.any (fun a => !a.state.isOpen) then 1 else 0) +
      if settles id e then 1 else 0) = if row'.any (fun a => !a.state.isOpen) then 1 else 0)
    (ha : (∃ a, row' = some a ∧ a.state = .aborted) ∨
      aborts id e = false ∧ ∀ a, row = some a → a.state ≠ .aborted)
    (hd : (∃ a, row' = some a ∧ a.state ≠ .prepared ∧ a.state ≠ .aborted) ∨
      dispatches id e = false ∧ ∀ a, row = some a → a.state = .prepared) :
    History id row' (log ++ [e]) where
  closed := by rw [length_filter_concat, h.closed, hclosed]
  aborted := by
    rw [exists_concat]
    intro he
    refine ha.resolve_right fun ⟨hno, hrow⟩ => ?_
    obtain ⟨a, hsome, hs⟩ := h.aborted (he.resolve_right (by simp [hno]))
    exact hrow a hsome hs
  dispatched := by
    rw [exists_concat]
    intro he
    refine hd.resolve_right fun ⟨hno, hrow⟩ => ?_
    obtain ⟨a, hsome, hs, -⟩ := h.dispatched (he.resolve_right (by simp [hno]))
    exact hs (hrow a hsome)

/-- A move keeps the log and the row together. -/
theorem History.move (h : History id row log) (hm : Move id c o row row') :
    History id row' (log ++ [(c, o)]) := by
  cases hm with
  | admission hid ha =>
    refine h.next (by simp [settles, ha, State.isOpen]) (.inr ⟨rfl, ?_⟩) (.inr ⟨rfl, ?_⟩)
    all_goals
      intro _ e
      cases e
  | @dispatch a ha =>
    refine h.next (by simp [settles, ha, State.isOpen]) (.inr ⟨rfl, ?_⟩)
      (.inl ⟨_, rfl, State.noConfusion, State.noConfusion⟩)
    rintro _ ⟨⟩
    rw [ha]
    exact State.noConfusion
  | @uncertain now u a a' ha ha' =>
    have hopen : a'.state.isOpen = true := by rw [ha']; rfl
    refine h.next (by simp [settles, ha, hopen]) (.inr ⟨by simp [aborts], ?_⟩)
      (.inl ⟨a', rfl, by rw [ha']; decide, by rw [ha']; decide⟩)
    rintro _ ⟨⟩ e
    rw [e] at ha
    cases ha
  | @settled now u a a' ha ha' hs =>
    refine h.next (by simp [settles, ha, ha']) (.inr ⟨by simp [aborts], ?_⟩)
      (.inl ⟨a', rfl, ?_, hs⟩)
    · rintro _ ⟨⟩ e
      rw [e] at ha
      cases ha
    · intro e
      rw [e] at ha'
      cases ha'
  | @aborted now u a a' ha ha' =>
    -- only a prepared attempt is aborted, so it has not been dispatched
    refine h.next (by simp [settles, ha, ha', State.isOpen]) (.inl ⟨a', rfl, ha'⟩) (.inr ⟨rfl, ?_⟩)
    rintro _ ⟨⟩
    exact ha

theorem History.stay (h : History id row log) (hs : settles id e = false) (ha : aborts id e = false)
    (hd : dispatches id e = false) :
    History id row (log ++ [e]) where
  closed := by
    rw [length_filter_concat, hs]
    exact h.closed
  aborted := by
    rw [exists_concat]
    rintro (he | he)
    · exact h.aborted he
    · rw [ha] at he
      cases he
  dispatched := by
    rw [exists_concat]
    rintro (he | he)
    · exact h.dispatched he
    · rw [hd] at he
      cases he

/-- In every reachable state the windows add up and every attempt has a history. -/
theorem reach_accounted (xs : List (Action Call)) :
    Accounted (reach Call.body xs).store ∧
      ∀ id, History id (Store.attempt (reach Call.body xs).store id) (reach Call.body xs).log := by
  refine run_commits (P := fun (t : Store) (log : List (Call × Outcome)) =>
    Accounted t ∧ ∀ id, History id (t.attempt id) log) ?_ ?_ xs
  · refine ⟨?_, fun id => ⟨rfl, ?_, ?_⟩⟩
    · intro b p start
      rfl
    all_goals
      rintro ⟨e, he, -⟩
      exact absurd he not_mem_nil
  · rintro t log c o t' ⟨hacc, hhist⟩ hexec
    refine ⟨accounted_exec hexec hacc, fun id => ?_⟩
    rcases body_exec hexec id with hm | ⟨hrow, hs, ha, hd⟩
    · exact (hhist id).move hm
    · rw [hrow]
      exact (hhist id).stay hs ha hd

/-- A settlement of a closed attempt, with the total it was closed with, commits and changes
nothing. -/
theorem settle_again {u : Usage} (ha : t.attempt id = some a) (hclosed : a.state.isOpen = false)
    (hu : u.validate = none) (hsome : u.total ≠ none) (htotal : a.reported = u.total) :
    Exec t (settle now id u false) .unchanged t := by
  have hrepeats : a.repeats u false = true := by
    obtain ⟨n, hn⟩ := ne_none_iff_exists'.mp hsome
    simp [Attempt.repeats, htotal, hn]
  unfold settle
  rw [hu]
  refine exec_bind.mpr ⟨some a, t, exec_lockAttempt.mpr ⟨.inl ha.symm, rfl⟩, ?_⟩
  simp only [hclosed, Bool.false_eq_true, not_false_eq_true, if_true]
  exact exec_bind.mpr ⟨(), t, exec_require.mpr ⟨hrepeats, rfl⟩, exec_pure.mpr ⟨rfl, rfl⟩⟩

/-- **Token windows account for open attempts.**  In every state that an interleaving of the
statements of admissions, dispatches, settlements, aborts and changes of budgets leads to, with
sessions cut off anywhere: the reserved total of every window is the sum over the attempts that are
neither settled nor aborted of what they have reserved there; an admission that commits leaves
every window it has charged within the maximum of its budget; an attempt is settled or aborted at
most once; a settlement of a closed attempt that commits changes nothing, and it commits only if
it is with the total that the attempt was closed with, or without one; and no attempt is both
dispatched and aborted. -/
theorem code_windows (xs : List (Action Call)) :
    (∀ b p start, Store.reservedAt (reach Call.body xs).store b p start =
      Store.owedAt (reach Call.body xs).store b p start) ∧
    (∀ x m o, (reach Call.body xs).Commits Call.body x (.admission m) o →
      ∃ a, Store.attempt ((reach Call.body xs).step Call.body x).store m.id = some a ∧
        Within ((reach Call.body xs).step Call.body x).store a.reservations) ∧
    (∀ id, ((reach Call.body xs).log.filter (settles id)).length ≤ 1) ∧
    (∀ id a, Store.attempt (reach Call.body xs).store id = some a → a.state.isOpen = false →
      (∀ x now u abort o, (reach Call.body xs).Commits Call.body x (.settle now id u abort) o →
        ((reach Call.body xs).step Call.body x).store = (reach Call.body xs).store ∧
          (abort = false → u.total ≠ none → u.total = a.reported)) ∧
      ∀ now u, u.validate = none → u.total ≠ none → a.reported = u.total →
        Exec (reach Call.body xs).store (settle now id u false) .unchanged
          (reach Call.body xs).store) ∧
    ∀ id, ¬((∃ e ∈ (reach Call.body xs).log, dispatches id e = true) ∧
      ∃ e ∈ (reach Call.body xs).log, aborts id e = true) := by
  obtain ⟨hacc, hhist⟩ := reach_accounted xs
  refine ⟨hacc, ?_, ?_, ?_, ?_⟩
  · intro x m o hc
    obtain ⟨-, -, ⟨a, ha, -, hin⟩, -⟩ := admission_exec ((reach_ok xs).exec_of_commits hc)
    exact ⟨a, ha, hin⟩
  · intro id
    rw [(hhist id).closed]
    split <;> omega
  · intro id a ha hclosed
    refine ⟨?_, fun now u hu hsome htotal => settle_again ha hclosed hu hsome htotal⟩
    intro x now u abort o hc
    obtain ⟨a', ha', h | ⟨a'', t₁, hm, -⟩⟩ := settle_exec ((reach_ok xs).exec_of_commits hc)
    · obtain ⟨-, hrepeats, -, hstore⟩ := h
      refine ⟨hstore, ?_⟩
      rintro rfl hsome
      rw [ha] at ha'
      cases ha'
      simp only [Attempt.repeats, Bool.false_and, Bool.false_or, Bool.not_false, Bool.true_and,
        Bool.or_eq_true, Bool.and_eq_true, decide_eq_true_eq] at hrepeats
      rcases hrepeats with h | h
      · exact absurd h hsome
      · exact h.2.symm
    · rw [ha] at ha'
      cases ha'
      rw [hm.isOpen] at hclosed
      cases hclosed
  · rintro id ⟨hd, hab⟩
    obtain ⟨a, ha, hs⟩ := (hhist id).aborted hab
    obtain ⟨a', ha', -, hne⟩ := (hhist id).dispatched hd
    rw [ha] at ha'
    cases ha'
    exact hne hs

/-- A budget of ten tokens a day, an attempt with a bound of eight that uses five, and one with a
bound of six, which is turned down. -/
def sampleRun : List (Action Call) :=
  [.call (.configure 0 ⟨true, 1, none, none, some 10, none⟩),
    .call (.admission ⟨0, 1, 2, 3, some ⟨8, ['e']⟩, false, 0⟩),
    .call (.dispatch 0), .call (.settle 1 0 ⟨some 5, none, none, none, none⟩ false),
    .call (.admission ⟨1, 1, 2, 3, some ⟨6, ['e']⟩, false, 2⟩)] ++
  (List.replicate 2 (.go 0) ++ List.replicate 12 (.go 1) ++ List.replicate 3 (.go 2) ++
    List.replicate 5 (.go 3) ++ List.replicate 5 (.go 4))

example : ((reach Call.body sampleRun).log.map Prod.snd =
      [.configured, .admitted, .dispatched, .settled]) ∧
    Store.window (reach Call.body sampleRun).store 0 .day 0 = some ⟨0, 5⟩ := by
  refine ⟨?_, ?_⟩ <;> decide +kernel

end Olp.CodeTokens
