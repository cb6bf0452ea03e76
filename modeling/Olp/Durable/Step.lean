import Olp.Durable.Debit

/-!
# What a transaction does

Every transaction that commits is a step of the ledger: under each identifier it opens a
debit, moves it on, or leaves it, and every owner whose exposure may change gets a new
version.
-/

namespace Olp.Durable

open Limits (maxSafeInteger)

variable {l l' : Ledger} {t : Tx} {d d' : Debit} {id : Id}

/-! ## The parts of a transaction -/

variable {s : DebitState}

theorem DebitState.inFlight_iff : s.inFlight = true ↔ s = .dispatched ∨ s = .outcomeUnknown := by
  simp [DebitState.inFlight]

theorem DebitState.undispatched_iff : s.undispatched = true ↔ s = .prepared ∨ s = .ready := by
  simp [DebitState.undispatched]

theorem Ledger.claimed_eq_ok {claim : Id} :
    l.claimed id claim = .ok d ↔ l.debits.lookup id = some d ∧ d.claimId = claim := by
  unfold Ledger.claimed
  cases l.debits.lookup id with
  | none => simp
  | some x =>
    simp only [bind_eq_ok, require_eq_ok, pure_eq_ok, exists_const, Option.some.injEq]
    constructor
    · rintro ⟨hx, rfl⟩
      exact ⟨rfl, hx⟩
    · rintro ⟨rfl, hx⟩
      exact ⟨hx, rfl⟩

theorem Debit.update_eq_ok {new : Row} :
    d.update new = .ok d' ↔
      guardUpdate d.row new = true ∧ ∃ h, d' = { d with row := new, checked := h } := by
  unfold Debit.update
  simp only [bind_eq_ok, require_eq_ok, exists_const]
  refine and_congr_right fun _ => ?_
  split
  · rename_i h
    rw [pure_eq_ok]
    constructor
    · intro e
      exact ⟨h, e.symm⟩
    · rintro ⟨_, e⟩
      exact e.symm
  · rename_i h
    constructor
    · intro e
      exact absurd e throw_ne_ok
    · rintro ⟨h', -⟩
      exact absurd h' h

theorem Ledger.lookup_put :
    (l.put d).debits.lookup id = if id = d.intent.id then some d else l.debits.lookup id :=
  Table.lookup_insert_eq ..

/-- Versions never go back, and those of the owners named go up. -/
theorem bumpDebitOwners_spec {owners : List Id} {last : Option Id} {v v' : Id → Version}
    (h : bumpDebitOwners owners last v = .ok v') :
    (∀ o, v o ≤ v' o) ∧ ∀ o ∈ owners, last ≠ some o → v o < v' o := by
  induction owners generalizing last v with
  | nil =>
    obtain rfl : v = v' := by simpa [bumpDebitOwners] using h
    simp
  | cons o os ih =>
    unfold bumpDebitOwners at h
    by_cases hlast : last = some o
    · rw [if_pos hlast] at h
      obtain ⟨hle, hlt⟩ := ih h
      refine ⟨hle, fun p hp hne => ?_⟩
      rcases List.mem_cons.mp hp with rfl | hp
      · exact absurd hlast hne
      · exact hlt p hp hne
    · rw [if_neg hlast] at h
      split at h
      · rename_i hv
        obtain ⟨hle, hlt⟩ := ih h
        have hup : v ≤ Function.update v o ⟨(v o).1 + 1, hv⟩ :=
          le_update_iff.mpr ⟨Nat.le_succ _, fun _ _ => le_rfl⟩
        have ho : v o < v' o := by
          apply lt_of_lt_of_le _ (hle o)
          rw [Function.update_self]
          exact Nat.lt_succ_self _
        refine ⟨fun p => (hup p).trans (hle p), fun p hp _ => ?_⟩
        by_cases hpo : p = o
        · rw [hpo]
          exact ho
        · have hp : p ∈ os := (List.mem_cons.mp hp).resolve_left hpo
          exact lt_of_le_of_lt (hup p) (hlt p hp fun e => hpo (Option.some.inj e).symm)
      · cases h

theorem Ledger.bump_spec {owners : List Id} (h : l.bump owners = .ok l') :
    l'.debits = l.debits ∧ (∀ o, l.versions o ≤ l'.versions o) ∧
      ∀ o ∈ owners, l.versions o < l'.versions o := by
  obtain ⟨v, hv, rfl⟩ := map_eq_ok.mp h
  obtain ⟨hle, hlt⟩ := bumpDebitOwners_spec hv
  exact ⟨rfl, hle, fun o ho => hlt o ho (Option.some_ne_none o).symm⟩

/-! ## What a transaction does -/

/-- The transaction admits a debit. -/
def Tx.admits (id : Id) : Tx → Bool
  | .admitDebit _ id' _ _ _ => id' = id
  | _ => false

/-- The transaction dispatches a debit. -/
def Tx.dispatches (id : Id) : Tx → Bool
  | .markDispatched _ id' _ _ => id' = id
  | _ => false

/-- A debit as it is when it is prepared. -/
structure Debit.Fresh (d : Debit) : Prop where
  state : d.row.state = .prepared
  undispatched : d.row.dispatchedAt = none
  cost : d.row.observedCost = 0
  charge : d.row.observedCharge = 0
  results : d.results = []

/-- What never changes of a debit. -/
def Debit.SameIntent (d d' : Debit) : Prop :=
  d'.intent = d.intent ∧ d'.claimId = d.claimId ∧ d'.owners = d.owners

/-- What a transaction may do to a debit; `bumped` says that the owners of the debit get a
new version. -/
inductive Move (t : Tx) (bumped : Prop) (d d' : Debit) : Prop
  | admitDebit (admits : t.admits d.intent.id = true) (state : d.row.state = .prepared)
      (row : d'.row = { d.row with state := .ready }) (results : d'.results = d.results)
  | dispatch (now : Nat) (dispatches : t.dispatches d.intent.id = true)
      (state : d.row.state = .ready)
      (row : d'.row = { d.row with state := .dispatched, dispatchedAt := some now })
      (results : d'.results = d.results)
  | unknown (state : d.row.state.inFlight = true)
      (row : d'.row = { d.row with state := .outcomeUnknown }) (results : d'.results = d.results)
  | record (r : DebitResult) (state : d.row.state.inFlight = true)
      (new : ∀ x ∈ d.results, x.digest ≠ r.digest)
      (cost : d'.row.observedCost = d.row.observedCost + r.cost)
      (charge : d'.row.observedCharge = d.row.observedCharge + r.charge)
      (dispatchedAt : d'.row.dispatchedAt = d.row.dispatchedAt)
      (state' : d'.row.state = .settled ∨ d'.row.state.inFlight = true)
      (results : d'.results = d.results ++ [r]) (bump : bumped)
  | notAccepted (now : Nat) (state : d.row.state.inFlight = true)
      (proof : d.clean = true ∨ d.row.state = .dispatched ∧ ∃ leased,
        t = .markNotSent now d.intent.id d.claimId leased)
      (row : d'.row = { d.row with state := .notAccepted, closedAt := some now })
      (results : d'.results = d.results) (bump : bumped)
  | release (now : Nat) (state : d.row.state.undispatched = true)
      (row : d'.row = { d.row with state := .released, closedAt := some now })
      (results : d'.results = d.results) (bump : bumped)

def Bumped (l l' : Ledger) (d : Debit) : Prop := ∀ o ∈ d.ownerIds, l.versions o < l'.versions o

/-- What a transaction may do under an identifier. -/
inductive Change (t : Tx) (l l' : Ledger) (id : Id) : Prop
  | same (lookup : l'.debits.lookup id = l.debits.lookup id)
      (dispatches : t.dispatches id = false)
  | opened (d : Debit) (lookup : l.debits.lookup id = none)
      (lookup' : l'.debits.lookup id = some d) (fresh : d.Fresh)
      (dispatches : t.dispatches id = false) (bump : Bumped l l' d)
  | moved (d d' : Debit) (lookup : l.debits.lookup id = some d)
      (lookup' : l'.debits.lookup id = some d') (intent : d.SameIntent d')
      (move : Move t (Bumped l l' d) d d')
      (dispatches : t.dispatches id = true → d.row.state = .ready ∧ d'.row.dispatchedAt.isSome)

/-- What a transaction may do to a ledger. -/
structure Step (t : Tx) (l l' : Ledger) : Prop where
  versions : ∀ o, l.versions o ≤ l'.versions o
  change : ∀ id, Change t l l' id

section Put

variable (hd : l.debits.lookup id = some d) (hput : l'.debits = (l.put d').debits)
  (hv : ∀ o, l.versions o ≤ l'.versions o) (hi : d.SameIntent d') (hm : Move t (Bumped l l' d) d d')

include hd hput hv hi hm

theorem Step.of_put
    (ht : t.dispatches id = true → d.row.state = .ready ∧ d'.row.dispatchedAt.isSome)
    (hother : ∀ j, j ≠ id → t.dispatches j = false) : Step t l l' := by
  have hid : d'.intent.id = id := by rw [hi.1, l.keyed hd]
  refine ⟨hv, fun j => ?_⟩
  by_cases hj : j = id
  · subst hj
    refine .moved d d' hd ?_ hi hm ht
    rw [hput, Ledger.lookup_put, if_pos hid.symm]
  · refine .same ?_ (hother j hj)
    rw [hput, Ledger.lookup_put, hid, if_neg hj]

theorem Step.of_quiet (ht : ∀ j, t.dispatches j = false) : Step t l l' := by
  refine Step.of_put hd hput hv hi hm (fun h => ?_) fun j _ => ht j
  rw [ht] at h
  cases h

end Put

theorem Step.refl (l : Ledger) (ht : ∀ j, t.dispatches j = false) : Step t l l :=
  ⟨fun _ => le_rfl, fun j => .same rfl (ht j)⟩

variable {now claim : Nat}

theorem Ledger.close_spec {state : DebitState} (h : l.close now d state = .ok l') :
    ∃ d', l'.debits = (l.put d').debits ∧ (∀ o, l.versions o ≤ l'.versions o) ∧
      Bumped l l' d ∧ d.SameIntent d' ∧ d'.results = d.results ∧
      d'.row = { d.row with state := state, closedAt := some now } := by
  obtain ⟨d', hd', h⟩ := bind_eq_ok.mp h
  obtain ⟨-, hvalid, rfl⟩ := Debit.update_eq_ok.mp hd'
  obtain ⟨hput, hle, hlt⟩ := Ledger.bump_spec h
  exact ⟨_, hput, hle, hlt, ⟨rfl, rfl, rfl⟩, rfl, rfl⟩

theorem prepare_step {authorized : Bool} {i : DebitIntent} {claim : Id} {owners : List DebitOwner}
    (h : prepareTx l now authorized i claim owners = .ok (s, l')) :
    Step (.prepare now authorized i claim owners) l l' := by
  unfold prepareTx at h
  simp only [bind_eq_ok, require_eq_ok, exists_const] at h
  obtain ⟨-, h⟩ := h
  cases hn : normalizedDebitOwners owners with
  | none => simp [hn] at h
  | some normalized =>
    simp only [hn, bind_eq_ok, require_eq_ok, exists_const] at h
    obtain ⟨-, -, -, h⟩ := h
    cases hd : l.debits.lookup i.id with
    | some d =>
      simp only [hd, bind_eq_ok, require_eq_ok, exists_const, pure_eq_ok] at h
      obtain ⟨-, h⟩ := h
      obtain rfl : l = l' := (Prod.mk.inj h).2
      exact Step.refl l fun _ => rfl
    | none =>
      simp only [hd, bind_eq_ok, pure_eq_ok] at h
      obtain ⟨l₁, h, he⟩ := h
      obtain rfl : l₁ = l' := (Prod.mk.inj he).2
      obtain ⟨hput, hle, hlt⟩ := Ledger.bump_spec h
      refine ⟨hle, fun j => ?_⟩
      by_cases hj : j = i.id
      · subst hj
        refine .opened (i.debit claim normalized) hd ?_ ⟨rfl, rfl, rfl, rfl, rfl⟩ rfl hlt
        rw [hput, Ledger.lookup_put, if_pos]
        rfl
      · refine .same ?_ rfl
        rw [hput, Ledger.lookup_put, if_neg]
        exact hj

theorem admit_step {requests : List (Id × Basis)} {verified : Bool}
    (h : admitDebit l now id claim requests verified = .ok l') :
    Step (.admitDebit now id claim requests verified) l l' := by
  unfold admitDebit at h
  simp only [bind_eq_ok, require_eq_ok, exists_const, pure_eq_ok, Ledger.claimed_eq_ok,
    Debit.update_eq_ok] at h
  obtain ⟨d, ⟨hd, -⟩, -, hs, -, -, -, d', ⟨-, hvalid, rfl⟩, rfl⟩ := h
  refine Step.of_quiet hd rfl (fun _ => le_rfl) ⟨rfl, rfl, rfl⟩ ?_ fun _ => rfl
  exact .admitDebit (by simp [Tx.admits, l.keyed hd]) hs rfl rfl

theorem markDispatched_step {authorized : Bool}
    (h : markDispatchedTx l now id claim authorized = .ok l') :
    Step (.markDispatched now id claim authorized) l l' := by
  unfold markDispatchedTx at h
  simp only [bind_eq_ok, require_eq_ok, exists_const, pure_eq_ok, Ledger.claimed_eq_ok,
    Debit.update_eq_ok] at h
  obtain ⟨d, ⟨hd, -⟩, ⟨hs, -, -⟩, d', ⟨-, hvalid, rfl⟩, rfl⟩ := h
  refine Step.of_put hd rfl (fun _ => le_rfl) ⟨rfl, rfl, rfl⟩ ?_ (fun _ => ⟨hs, rfl⟩) ?_
  · exact .dispatch now (by simp [Tx.dispatches, l.keyed hd]) hs rfl rfl
  · intro j hj
    simp [Tx.dispatches, hj.symm]

theorem markUnknown_step (h : markUnknown l id claim = .ok l') :
    Step (.markUnknown id claim) l l' := by
  unfold markUnknown at h
  simp only [bind_eq_ok, require_eq_ok, exists_const, pure_eq_ok, Ledger.claimed_eq_ok,
    Debit.update_eq_ok] at h
  obtain ⟨d, ⟨hd, -⟩, hs, d', ⟨-, hvalid, rfl⟩, rfl⟩ := h
  refine Step.of_quiet hd rfl (fun _ => le_rfl) ⟨rfl, rfl, rfl⟩ ?_ fun _ => rfl
  exact .unknown hs rfl rfl

variable {r : DebitResult}

theorem beginDebitSettle_spec {duplicate : Bool} (h : beginDebitSettle l r = .ok (d, duplicate)) :
    l.debits.lookup r.dispatchId = some d ∧
      (duplicate = true ↔ ∃ x ∈ d.results, x.digest = r.digest) := by
  unfold beginDebitSettle at h
  cases hd : l.debits.lookup r.dispatchId with
  | none => simp [hd] at h
  | some x =>
    simp only [hd, bind_eq_ok, pure_eq_ok, Prod.mk.injEq] at h
    obtain ⟨b, hb, rfl, rfl⟩ := h
    refine ⟨rfl, ?_⟩
    unfold debitResultReplay at hb
    simp only [bind_eq_ok, require_eq_ok, exists_const] at hb
    obtain ⟨-, -, hb⟩ := hb
    cases hf : x.results.find? (·.digest = r.digest) with
    | none =>
      obtain rfl : false = b := by simpa [hf] using hb
      simpa using hf
    | some stored =>
      obtain rfl : true = b := by
        simp only [hf, bind_eq_ok, require_eq_ok, exists_const, pure_eq_ok] at hb
        exact hb.2
      simp only [true_iff]
      exact ⟨stored, List.mem_of_find?_eq_some hf, by simpa using List.find?_some hf⟩

variable {persisted : Bool}

variable {accounting : List (Id × Basis)}

theorem settle_recorded (hd : l.debits.lookup r.dispatchId = some d)
    (hr : ∃ x ∈ d.results, x.digest = r.digest)
    (h : settleDebitTx l now r persisted accounting = .ok l') : l' = l := by
  obtain ⟨⟨x, duplicate⟩, hx, h⟩ := bind_eq_ok.mp h
  obtain ⟨hx, hdup⟩ := beginDebitSettle_spec hx
  cases hd.symm.trans hx
  dsimp only at h
  rw [if_pos (hdup.mpr hr), pure_eq_ok] at h
  exact h.symm

theorem settlePriced_recorded {kind : DebitKind} (hd : l.debits.lookup r.dispatchId = some d)
    (hr : ∃ x ∈ d.results, x.digest = r.digest)
    (h : settlePricedDebitTx l now r kind persisted = .ok l') : l' = l := by
  unfold settlePricedDebitTx at h
  simp only [bind_eq_ok, require_eq_ok, exists_const] at h
  obtain ⟨-, ⟨x, duplicate⟩, hx, h⟩ := h
  obtain ⟨hx, hdup⟩ := beginDebitSettle_spec hx
  cases hd.symm.trans hx
  rw [if_pos (hdup.mpr hr), pure_eq_ok] at h
  exact h.symm

theorem resolveReceipts_spec {evidence : Id} {resolves : List Id}
    (h : resolves.foldlM (resolveReceipt evidence) d = .ok d') :
    d.SameIntent d' ∧ d'.row = d.row ∧ d'.results = d.results := by
  refine foldlM_invariant (P := fun x => d.SameIntent x ∧ x.row = d.row ∧ x.results = d.results)
    ?_ ⟨⟨rfl, rfl, rfl⟩, rfl, rfl⟩ h
  intro x resolved x' hx hx'
  unfold resolveReceipt at hx'
  simp only [bind_eq_ok, require_eq_ok, exists_const, pure_eq_ok] at hx'
  obtain ⟨-, rfl⟩ := hx'
  exact hx

theorem appendDebitResult_eq_ok :
    appendDebitResult d r = .ok d' ↔
      (∀ x ∈ d.results, x.eventId ≠ r.eventId) ∧ d' = { d with results := d.results ++ [r] } := by
  unfold appendDebitResult
  simp only [bind_eq_ok, require_eq_ok, exists_const, pure_eq_ok]
  exact and_congr_right fun _ => eq_comm

theorem settleRow_state (now : Nat) (r : DebitResult) (h : d.row.state.inFlight = true) :
    (settleRow now d r).state = .settled ∨ (settleRow now d r).state.inFlight = true := by
  unfold settleRow
  dsimp only
  split
  · exact .inl rfl
  · split
    · exact .inr rfl
    · exact .inr h

theorem settle_step (h : settleDebitTx l now r persisted accounting = .ok l') :
    Step (.settle now r persisted accounting) l l' := by
  obtain ⟨⟨d, duplicate⟩, hd, h⟩ := bind_eq_ok.mp h
  obtain ⟨hd, hdup⟩ := beginDebitSettle_spec hd
  dsimp only at h
  by_cases hdup' : duplicate = true
  · rw [if_pos hdup', pure_eq_ok] at h
    rw [← h]
    exact Step.refl l fun _ => rfl
  · rw [if_neg hdup'] at h
    have hnew : ∀ x ∈ d.results, x.digest ≠ r.digest := fun x hx e => hdup' (hdup.mpr ⟨x, hx, e⟩)
    simp only [bind_eq_ok, require_eq_ok, exists_const, appendDebitResult_eq_ok] at h
    obtain ⟨hs, -, -, d₁, ⟨-, rfl⟩, d₂, h₂, d₃, h₃, h⟩ := h
    obtain ⟨hintent, hrow, hresults⟩ := resolveReceipts_spec h₂
    obtain ⟨-, hvalid, rfl⟩ := Debit.update_eq_ok.mp h₃
    obtain ⟨hput, hle, hlt⟩ := Ledger.bump_spec h
    refine Step.of_quiet hd hput hle hintent ?_ fun _ => rfl
    refine .record r hs hnew ?_ ?_ ?_ ?_ hresults ?_
    · simp [settleRow, hrow]
    · simp [settleRow, hrow]
    · simp [settleRow, hrow]
    · exact settleRow_state now r (by rw [hrow]; exact hs)
    · intro o ho
      apply hlt
      rw [Debit.ownerIds, hintent.2.2]
      exact ho

theorem settlePriced_step {kind : DebitKind}
    (h : settlePricedDebitTx l now r kind persisted = .ok l') :
    Step (.settlePriced now r kind persisted) l l' := by
  unfold settlePricedDebitTx at h
  simp only [bind_eq_ok, require_eq_ok, exists_const] at h
  obtain ⟨-, ⟨d, duplicate⟩, hd, h⟩ := h
  obtain ⟨hd, hdup⟩ := beginDebitSettle_spec hd
  by_cases hdup' : duplicate = true
  · rw [if_pos hdup', pure_eq_ok] at h
    rw [← h]
    exact Step.refl l fun _ => rfl
  · rw [if_neg hdup'] at h
    have hnew : ∀ x ∈ d.results, x.digest ≠ r.digest := fun x hx e => hdup' (hdup.mpr ⟨x, hx, e⟩)
    simp only [bind_eq_ok, require_eq_ok, exists_const, appendDebitResult_eq_ok] at h
    obtain ⟨⟨-, hs⟩, -, d₁, ⟨-, rfl⟩, -, d₂, h₂, h⟩ := h
    obtain ⟨-, hvalid, rfl⟩ := Debit.update_eq_ok.mp h₂
    obtain ⟨hput, hle, hlt⟩ := Ledger.bump_spec h
    refine Step.of_quiet hd hput hle ⟨rfl, rfl, rfl⟩ ?_ fun _ => rfl
    exact .record r hs hnew rfl rfl rfl (.inl rfl) rfl hlt

/-- The transport's proof closes a debit in flight; only a debit whose outcome was marked
unknown is looked at for results. -/
theorem markNotSent_spec {leased : Bool} (h : markNotSent l now id claim leased = .ok l') :
    ∃ d, l.debits.lookup id = some d ∧ d.claimId = claim ∧
      (d.row.state = .notAccepted ∧ l' = l ∨
        d.row.state.inFlight = true ∧ (d.row.state = .outcomeUnknown → d.clean = true) ∧
          l.close now d .notAccepted = .ok l') := by
  unfold markNotSent at h
  simp only [bind_eq_ok, Ledger.claimed_eq_ok] at h
  obtain ⟨d, ⟨hd, hclaim⟩, h⟩ := h
  refine ⟨d, hd, hclaim, ?_⟩
  by_cases hs : d.row.state = .notAccepted
  · rw [if_pos hs, pure_eq_ok] at h
    exact .inl ⟨hs, h.symm⟩
  · rw [if_neg hs] at h
    simp only [bind_eq_ok, require_eq_ok, exists_const] at h
    obtain ⟨hflight, hproof, h⟩ := h
    exact .inr ⟨hflight, fun e => (hproof e).2.2.2, h⟩

theorem markNotSent_step {leased : Bool} (h : markNotSent l now id claim leased = .ok l') :
    Step (.markNotSent now id claim leased) l l' := by
  obtain ⟨d, hd, hclaim, ⟨-, rfl⟩ | ⟨hs, hproof, h⟩⟩ := markNotSent_spec h
  · exact Step.refl l' fun _ => rfl
  · obtain ⟨d', hput, hle, hlt, hi, hresults, hrow⟩ := Ledger.close_spec h
    refine Step.of_quiet hd hput hle hi (.notAccepted now hs ?_ hrow hresults hlt) fun _ => rfl
    rcases DebitState.inFlight_iff.mp hs with hs | hs
    · exact .inr ⟨hs, leased, by rw [l.keyed hd, hclaim]⟩
    · exact .inl (hproof hs)

theorem resolveNotAccepted_spec {actor evidence : Nat}
    (h : resolveNotAcceptedTx l now id actor evidence = .ok l') :
    ∃ d, l.debits.lookup id = some d ∧
      (l' = l ∨ d.row.state.inFlight = true ∧ d.clean = true ∧
        l.close now { d with audit := some (actor, evidence) } .notAccepted = .ok l') := by
  unfold resolveNotAcceptedTx at h
  cases hd : l.debits.lookup id with
  | none => simp [hd] at h
  | some d =>
    refine ⟨d, rfl, ?_⟩
    cases ha : d.audit with
    | some audit =>
      simp only [hd, ha, bind_eq_ok, require_eq_ok, exists_const, pure_eq_ok] at h
      exact .inl h.2.symm
    | none =>
      simp only [hd, ha, bind_eq_ok, require_eq_ok, exists_const] at h
      exact .inr h

theorem resolveNotAccepted_step {actor evidence : Nat}
    (h : resolveNotAcceptedTx l now id actor evidence = .ok l') :
    Step (.resolveNotAccepted now id actor evidence) l l' := by
  obtain ⟨d, hd, rfl | ⟨hs, hclean, h⟩⟩ := resolveNotAccepted_spec h
  · exact Step.refl l' fun _ => rfl
  · obtain ⟨d', hput, hle, hlt, hi, hresults, hrow⟩ := Ledger.close_spec h
    exact Step.of_quiet hd hput hle hi (.notAccepted now hs (.inl hclean) hrow hresults hlt)
      fun _ => rfl

theorem releaseUndispatched_step (h : releaseUndispatched l now id claim = .ok l') :
    Step (.releaseUndispatched now id claim) l l' := by
  unfold releaseUndispatched at h
  simp only [bind_eq_ok, Ledger.claimed_eq_ok] at h
  obtain ⟨d, ⟨hd, -⟩, h⟩ := h
  by_cases hs : d.row.state = .released
  · rw [if_pos hs, pure_eq_ok] at h
    rw [← h]
    exact Step.refl l fun _ => rfl
  · rw [if_neg hs] at h
    simp only [bind_eq_ok, require_eq_ok, exists_const] at h
    obtain ⟨hs, h⟩ := h
    obtain ⟨d', hput, hle, hlt, hi, hresults, hrow⟩ := Ledger.close_spec h
    exact Step.of_quiet hd hput hle hi (.release now hs hrow hresults hlt) fun _ => rfl

theorem releaseAll_spec {ds : List Debit} (h : ds.foldlM (releaseOne now) l = .ok l') :
    l'.versions = l.versions ∧ ∀ j,
      l'.debits.lookup j = l.debits.lookup j ∨
        ∃ d ∈ ds, d.intent.id = j ∧ ∃ d', l'.debits.lookup j = some d' ∧ d.SameIntent d' ∧
          d'.results = d.results ∧
          d'.row = { d.row with state := .released, closedAt := some now } := by
  induction ds generalizing l with
  | nil =>
    obtain rfl : l = l' := by simpa using h
    exact ⟨rfl, fun _ => .inl rfl⟩
  | cons d ds ih =>
    rw [List.foldlM_cons, bind_eq_ok] at h
    obtain ⟨l₁, h₁, h⟩ := h
    unfold releaseOne at h₁
    simp only [bind_eq_ok, pure_eq_ok, Debit.update_eq_ok] at h₁
    obtain ⟨d', ⟨-, hvalid, rfl⟩, rfl⟩ := h₁
    obtain ⟨hv, hl⟩ := ih h
    refine ⟨hv, fun j => ?_⟩
    rcases hl j with hj | ⟨x, hx, hj⟩
    · by_cases hd : j = d.intent.id
      · rw [Ledger.lookup_put, if_pos hd] at hj
        exact .inr ⟨d, List.mem_cons_self, hd.symm, _, hj, ⟨rfl, rfl, rfl⟩, rfl, rfl⟩
      · refine .inl ?_
        rw [hj, Ledger.lookup_put, if_neg hd]
    · exact .inr ⟨x, List.mem_cons_of_mem _ hx, hj⟩

theorem recoverPrepared_step {limit n : Nat} {ids : List Id}
    (h : recoverPrepared l now limit ids = .ok (n, l')) :
    Step (.recoverPrepared now limit ids) l l' := by
  unfold recoverPrepared at h
  simp only [bind_eq_ok, require_eq_ok, exists_const, pure_eq_ok, Prod.mk.injEq] at h
  obtain ⟨-, ⟨-, -, -, hds⟩, l₁, h₁, l₂, h₂, -, rfl⟩ := h
  obtain ⟨hv, hl⟩ := releaseAll_spec h₁
  obtain ⟨hput, hle, hlt⟩ := Ledger.bump_spec h₂
  rw [hv] at hle hlt
  refine ⟨hle, fun j => ?_⟩
  rcases hl j with hj | ⟨d, hd, rfl, d', hd', hi, hresults, hrow⟩
  · exact .same (by rw [hput, hj]) rfl
  · have hs : d.row.state.undispatched = true := by
      have := List.all_eq_true.mp hds d hd
      simp only [Debit.abandoned, Bool.decide_and, Bool.and_eq_true, decide_eq_true_eq] at this
      exact this.1
    have hlook : l.debits.lookup d.intent.id = some d := by
      obtain ⟨k, -, hk⟩ := List.mem_filterMap.mp hd
      rw [l.keyed hk, hk]
    refine .moved d d' hlook (by rw [hput, hd']) hi (.release now hs hrow hresults ?_)
      fun h => by cases h
    intro o ho
    refine hlt o ((List.mem_insertionSort _).mpr ?_)
    exact List.mem_flatMap.mpr ⟨d, hd, ho⟩

theorem exec_step (h : t.exec l = .ok l') : Step t l l' := by
  cases t with
  | prepare now authorized i claim owners =>
    obtain ⟨⟨s, _⟩, hx, rfl⟩ := map_eq_ok.mp h
    exact prepare_step hx
  | admitDebit => exact admit_step h
  | markDispatched => exact markDispatched_step h
  | markUnknown => exact markUnknown_step h
  | settle => exact settle_step h
  | settlePriced => exact settlePriced_step h
  | markNotSent => exact markNotSent_step h
  | resolveNotAccepted => exact resolveNotAccepted_step h
  | releaseUndispatched => exact releaseUndispatched_step h
  | recoverPrepared now limit ids =>
    obtain ⟨⟨n, _⟩, hx, rfl⟩ := map_eq_ok.mp h
    exact recoverPrepared_step hx

end Olp.Durable
