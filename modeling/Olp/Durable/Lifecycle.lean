import Olp.Durable.Step
import Olp.Run

/-!
# The lifecycle of a debit

The laws of every run of transactions: a debit is dispatched once and after its admission,
is never released after that, adds up its results, and does not change once it is closed.
A debit that is closed as not accepted has nothing observed, provided the transport's own
proof is not given for a debit with results while it still counts as dispatched.
-/

namespace Olp.Durable

variable {l l' : Ledger} {t : Tx} {d d' : Debit} {id : Id} {bumped : Prop}

/-! ## One debit -/

/-- What holds of a debit at all times. -/
structure Debit.Sound (d : Debit) : Prop where
  dispatched : d.row.dispatchedAt.isSome →
    d.row.state.undispatched = false ∧ d.row.state ≠ .released
  cost : d.row.observedCost = (d.results.map (·.cost)).sum
  charge : d.row.observedCharge = (d.results.map (·.charge)).sum
  distinct : (d.results.map (·.digest)).Nodup

theorem Debit.Fresh.sound (h : d.Fresh) : d.Sound where
  dispatched := by simp [h.undispatched]
  cost := by simp [h.cost, h.results]
  charge := by simp [h.charge, h.results]
  distinct := by simp [h.results]

theorem Move.opened (h : Move t bumped d d') : d.row.closedAt = none := by
  have hchecked := d.checked
  simp only [Row.valid, Bool.decide_and, Bool.and_eq_true, decide_eq_true_eq] at hchecked
  have hopen : d.row.state.undispatched = true ∨ d.row.state.inFlight = true := by
    cases h with
    | admitDebit _ hs | dispatch _ _ hs => exact .inl (by rw [hs]; rfl)
    | unknown hs | record _ hs | notAccepted _ hs => exact .inr hs
    | release _ hs => exact .inl hs
  rw [DebitState.undispatched_iff, DebitState.inFlight_iff] at hopen
  rw [← Option.not_isSome_iff_eq_none, hchecked.1]
  rcases hopen with (hs | hs) | hs | hs <;> simp [hs]

theorem Move.dispatchedAt (h : Move t bumped d d') (hd : d.row.dispatchedAt.isSome) :
    d'.row.dispatchedAt.isSome := by
  cases h with
  | admitDebit _ _ hrow | unknown _ hrow | notAccepted _ _ _ hrow | release _ _ hrow => rwa [hrow]
  | dispatch _ _ _ hrow => rw [hrow]; rfl
  | record _ _ _ _ _ hat => rwa [hat]

theorem Debit.Sound.keep (hd : d.Sound) (hcost : d'.row.observedCost = d.row.observedCost)
    (hcharge : d'.row.observedCharge = d.row.observedCharge) (hresults : d'.results = d.results)
    (hat : d'.row.dispatchedAt.isSome →
      d'.row.state.undispatched = false ∧ d'.row.state ≠ .released) : d'.Sound where
  dispatched := hat
  cost := by rw [hcost, hresults, hd.cost]
  charge := by rw [hcharge, hresults, hd.charge]
  distinct := by rw [hresults]; exact hd.distinct

theorem Move.sound (h : Move t bumped d d') (hd : d.Sound) : d'.Sound := by
  cases h with
  | admitDebit _ hs hrow hresults =>
    refine hd.keep (by rw [hrow]) (by rw [hrow]) hresults ?_
    rw [hrow]
    intro hat
    have := (hd.dispatched hat).1
    rw [hs] at this
    cases this
  | dispatch _ _ _ hrow hresults | unknown _ hrow hresults | notAccepted _ _ _ hrow hresults =>
    refine hd.keep (by rw [hrow]) (by rw [hrow]) hresults ?_
    rw [hrow]
    exact fun _ => ⟨rfl, by simp⟩
  | record r _ hnew hcost hcharge _ hs hresults =>
    refine ⟨fun _ => ?_, ?_, ?_, ?_⟩
    · rw [DebitState.inFlight_iff] at hs
      rcases hs with hs | hs | hs <;> rw [hs] <;> exact ⟨rfl, by simp⟩
    · simp [hcost, hresults, hd.cost]
    · simp [hcharge, hresults, hd.charge]
    · rw [hresults, List.map_append, List.nodup_append]
      refine ⟨hd.distinct, List.nodup_singleton _, ?_⟩
      rintro a ha b hb rfl
      obtain ⟨x, hx, hxa⟩ := List.mem_map.mp ha
      exact hnew x hx (hxa.trans (List.mem_singleton.mp hb))
  | release _ hs hrow hresults =>
    refine hd.keep (by rw [hrow]) (by rw [hrow]) hresults ?_
    rw [hrow]
    intro hat
    have := (hd.dispatched hat).1
    rw [hs] at this
    cases this

theorem Debit.clean_iff :
    d.clean = true ↔ d.row.observedCost = 0 ∧ d.row.observedCharge = 0 ∧
      ∀ r ∈ d.results, r.cost = 0 ∧ r.charge = 0 ∧ r.complete = false := by
  simp [Debit.clean]

/-! ## Whole runs -/

theorem Ledger.step_eq (l : Ledger) (t : Tx) : l.step t = l ∨ t.exec l = .ok (l.step t) := by
  unfold Ledger.step
  cases t.exec l with
  | ok l' => exact .inr rfl
  | error e => exact .inl rfl

/-- The transactions of a run that commit. -/
def committed (l : Ledger) : List Tx → List Tx
  | [] => []
  | t :: ts =>
    match t.exec l with
    | .ok l' => t :: committed l' ts
    | .error _ => committed l ts

/-- What a ledger knows of the transactions that made it. -/
structure Logged (log : List Tx) (l : Ledger) : Prop where
  sound : ∀ {id d}, l.debits.lookup id = some d → d.Sound
  admitted : ∀ {id d}, l.debits.lookup id = some d → d.row.state = .ready →
    ∃ t ∈ log, t.admits id = true
  dispatched : ∀ id, (∃ t ∈ log, t.dispatches id = true) ↔
    ∃ d, l.debits.lookup id = some d ∧ d.row.dispatchedAt.isSome = true

theorem logged_empty : Logged [] Ledger.empty where
  sound := by simp [Ledger.empty]
  admitted := by simp [Ledger.empty]
  dispatched := by simp [Ledger.empty]

theorem Logged.exec {log : List Tx} (hl : Logged log l) (h : t.exec l = .ok l') :
    Logged (log ++ [t]) l' := by
  have hstep := exec_step h
  refine ⟨fun {id d} hd => ?_, fun {id d} hd hs => ?_, fun id => ?_⟩
  · cases hstep.change id with
    | same hl' _ => exact hl.sound (hl' ▸ hd)
    | opened x _ hx hfresh =>
      cases hx.symm.trans hd
      exact hfresh.sound
    | moved x x' hx hx' _ hmove =>
      cases hx'.symm.trans hd
      exact hmove.sound (hl.sound hx)
  · suffices t.admits id = true ∨ ∃ u ∈ log, u.admits id = true by simpa [or_comm] using this
    cases hstep.change id with
    | same hl' _ => exact .inr (hl.admitted (hl' ▸ hd) hs)
    | opened x _ hx hfresh =>
      cases hx.symm.trans hd
      rw [hfresh.state] at hs
      cases hs
    | moved x x' hx hx' _ hmove =>
      cases hx'.symm.trans hd
      cases hmove with
      | admitDebit hadmits => exact .inl (l.keyed hx ▸ hadmits)
      | record _ _ _ _ _ _ hs' => rcases hs' with hs' | hs' <;> rw [hs] at hs' <;> cases hs'
      | dispatch _ _ _ hrow | unknown _ hrow | notAccepted _ _ _ hrow | release _ _ hrow =>
        rw [hrow] at hs; cases hs
  · suffices (t.dispatches id = true ∨ ∃ u ∈ log, u.dispatches id = true) ↔
        ∃ d, l'.debits.lookup id = some d ∧ d.row.dispatchedAt.isSome = true by
      simpa [or_comm] using this
    rw [hl.dispatched id]
    cases hstep.change id with
    | same hl' ht => simp [ht, hl']
    | opened x hnone hx hfresh ht => simp [ht, hnone, hx, hfresh.undispatched]
    | moved x x' hx hx' _ hmove ht =>
      simp only [hx, hx', Option.some.injEq, exists_eq_left']
      constructor
      · rintro (h | h)
        · exact (ht h).2
        · exact hmove.dispatchedAt h
      · intro h
        cases hmove with
        | dispatch _ hdispatches => exact .inl (l.keyed hx ▸ hdispatches)
        | admitDebit _ _ hrow | unknown _ hrow | notAccepted _ _ _ hrow | release _ _ hrow =>
          exact .inr (by rwa [hrow] at h)
        | record _ _ _ _ _ hat => exact .inr (by rwa [hat] at h)

theorem Logged.run {log : List Tx} (hl : Logged log l) (ts : List Tx) :
    Logged (log ++ committed l ts) (run Ledger.step l ts) := by
  induction ts generalizing l log with
  | nil => simpa [committed] using hl
  | cons t ts ih =>
    rw [run_cons]
    cases h : t.exec l with
    | ok l' =>
      have hstep : l.step t = l' := by simp [Ledger.step, h]
      rw [hstep]
      simpa [committed, h] using ih (hl.exec h)
    | error e =>
      have hstep : l.step t = l := by simp [Ledger.step, h]
      rw [hstep]
      simpa [committed, h] using ih hl

/-- A debit of a run is sound, was admitted if it is ready, and is dispatched if some transaction
did it. -/
theorem logged_run (ts : List Tx) : Logged (committed .empty ts) (run Ledger.step .empty ts) := by
  simpa using logged_empty.run ts

theorem closed_step (hd : l.debits.lookup id = some d) (hclosed : d.row.closedAt.isSome)
    (t : Tx) : (l.step t).debits.lookup id = some d := by
  rcases l.step_eq t with h | h
  · rw [h, hd]
  · cases (exec_step h).change id with
    | same hl' _ => rw [hl', hd]
    | opened x hnone => rw [hnone] at hd; cases hd
    | moved x x' hx _ _ hmove =>
      cases hx.symm.trans hd
      rw [hmove.opened] at hclosed
      cases hclosed

/-- No transaction changes a debit that is closed. -/
theorem closed_run (hd : l.debits.lookup id = some d) (hclosed : d.row.closedAt.isSome)
    (ts : List Tx) : (run Ledger.step l ts).debits.lookup id = some d :=
  run_induction (P := fun l : Ledger => l.debits.lookup id = some d)
    (fun _ t h => closed_step h hclosed t) ts hd

/-- A debit that is dispatched was admitted, and is dispatched for the first time. -/
theorem dispatch_once (xs : List Tx)
    (h : t.exec (run Ledger.step .empty xs) = .ok l') (ht : t.dispatches id = true) :
    (∃ a ∈ committed .empty xs, a.admits id = true) ∧
      ∀ b ∈ committed .empty xs, b.dispatches id = false := by
  have hlog := logged_run xs
  cases (exec_step h).change id with
  | same _ hquiet | opened _ _ _ _ hquiet => rw [ht] at hquiet; cases hquiet
  | moved d d' hd hd' _ _ hready =>
    obtain ⟨hs, -⟩ := hready ht
    refine ⟨hlog.admitted hd hs, fun b hb => ?_⟩
    by_contra hb'
    obtain ⟨x, hx, hat⟩ := (hlog.dispatched id).mp ⟨b, hb, by simpa using hb'⟩
    cases hx.symm.trans hd
    have := ((hlog.sound hx).dispatched hat).1
    rw [hs] at this
    cases this

/-- A settlement that is delivered again changes nothing. -/
theorem replay_step {r : DebitResult} (hd : l.debits.lookup r.dispatchId = some d)
    (hr : ∃ x ∈ d.results, x.digest = r.digest) (now : Nat) (persisted : Bool)
    (accounting : List (Id × Basis)) (kind : DebitKind) :
    l.step (.settle now r persisted accounting) = l ∧
      l.step (.settlePriced now r kind persisted) = l := by
  constructor
  · rcases l.step_eq (.settle now r persisted accounting) with h | h
    · exact h
    · exact settle_recorded hd hr h
  · rcases l.step_eq (.settlePriced now r kind persisted) with h | h
    · exact h
    · exact settlePriced_recorded hd hr h

/-! ## Nothing accepted -/

/-- The transport's proof is given for a dispatched debit of the claim it names only while nothing
priced or complete is recorded for it. -/
def ProvedUnsent (l : Ledger) : Tx → Prop
  | .markNotSent _ id claim _ => ∀ d ∈ l.debits.lookup id,
    d.claimId = claim → d.row.state = .dispatched → d.clean = true
  | _ => True

instance (l : Ledger) (t : Tx) : Decidable (ProvedUnsent l t) :=
  match t with
  | .markNotSent _ id claim _ => inferInstanceAs (Decidable (∀ d ∈ l.debits.lookup id,
      d.claimId = claim → d.row.state = .dispatched → d.clean = true))
  | .prepare .. | .admitDebit .. | .markDispatched .. | .markUnknown .. | .settle ..
  | .settlePriced .. | .resolveNotAccepted .. | .releaseUndispatched .. | .recoverPrepared .. =>
    inferInstanceAs (Decidable True)

theorem notAccepted_step
    (hl : ∀ {id d}, l.debits.lookup id = some d → d.row.state = .notAccepted → d.clean = true)
    (ht : ProvedUnsent l t) (hd : (l.step t).debits.lookup id = some d)
    (hs : d.row.state = .notAccepted) : d.clean = true := by
  rcases l.step_eq t with h | h
  · exact hl (h ▸ hd) hs
  · cases (exec_step h).change id with
    | same hl' _ => exact hl (hl' ▸ hd) hs
    | opened x _ hx hfresh =>
      cases hx.symm.trans hd
      rw [hfresh.state] at hs
      cases hs
    | moved x x' hx hx' _ hmove =>
      cases hx'.symm.trans hd
      cases hmove with
      | notAccepted now _ hproof hrow hresults =>
        have hclean : x.clean = true := by
          rcases hproof with hproof | ⟨hdispatched, leased, rfl⟩
          · exact hproof
          · exact ht x (l.keyed hx ▸ hx) rfl hdispatched
        rw [Debit.clean_iff] at hclean ⊢
        rw [hrow, hresults]
        exact hclean
      | record _ _ _ _ _ _ hs' => rcases hs' with hs' | hs' <;> rw [hs] at hs' <;> cases hs'
      | admitDebit _ _ hrow | dispatch _ _ _ hrow | unknown _ hrow | release _ _ hrow =>
        rw [hrow] at hs; cases hs

/-- A debit that was proved unsent is charged nothing. -/
theorem notAccepted_run {ts : List Tx} (h : Throughout Ledger.step ProvedUnsent .empty ts)
    (hd : (run Ledger.step .empty ts).debits.lookup id = some d)
    (hs : d.row.state = .notAccepted) : d.clean = true := by
  refine run_invariant (G := ProvedUnsent) (P := fun l : Ledger => ∀ {id d},
    l.debits.lookup id = some d → d.row.state = .notAccepted → d.clean = true) ?_ h ?_ hd hs
  · intro l t hl ht id d hd hs
    exact notAccepted_step hl ht hd hs
  · intro id d hd
    simp [Ledger.empty] at hd

/-- The lifecycle of debits under every run of whole transactions: one dispatch, after the
admission; no release afterwards; sums over distinct results, which replays leave alone;
no change after closing; and, as long as the transport proves only what is unsent, nothing
observed of what was not accepted. -/
theorem debit_lifecycle (ts : List Tx) :
    (∀ xs t ys id l', ts = xs ++ t :: ys → t.exec (run Ledger.step .empty xs) = .ok l' →
      t.dispatches id = true →
        (∃ a ∈ committed .empty xs, a.admits id = true) ∧
          ∀ b ∈ committed .empty xs, b.dispatches id = false) ∧
    (∀ id, (∃ t ∈ committed .empty ts, t.dispatches id = true) →
      ∃ d, (run Ledger.step .empty ts).debits.lookup id = some d ∧
        d.row.state ≠ .prepared ∧ d.row.state ≠ .ready ∧ d.row.state ≠ .released) ∧
    (∀ id d, (run Ledger.step .empty ts).debits.lookup id = some d →
      d.row.observedCost = (d.results.map (·.cost)).sum ∧
        d.row.observedCharge = (d.results.map (·.charge)).sum ∧
        (d.results.map (·.digest)).Nodup ∧
        ∀ r : DebitResult, r.dispatchId = id → r.digest ∈ d.results.map (·.digest) →
          ∀ now persisted accounting kind,
            (run Ledger.step .empty ts).step (.settle now r persisted accounting) =
                run Ledger.step .empty ts ∧
              (run Ledger.step .empty ts).step (.settlePriced now r kind persisted) =
                run Ledger.step .empty ts) ∧
    (∀ xs ys id d, ts = xs ++ ys → (run Ledger.step .empty xs).debits.lookup id = some d →
      d.row.closedAt.isSome = true → (run Ledger.step .empty ts).debits.lookup id = some d) ∧
    (Throughout Ledger.step ProvedUnsent .empty ts → ∀ id d,
      (run Ledger.step .empty ts).debits.lookup id = some d → d.row.state = .notAccepted →
        d.row.observedCost = 0 ∧ d.row.observedCharge = 0 ∧
          ∀ r ∈ d.results, r.cost = 0 ∧ r.charge = 0 ∧ r.complete = false) := by
  have hlog := logged_run ts
  refine ⟨?_, ?_, ?_, ?_, ?_⟩
  · rintro xs t ys id l' - h ht
    exact dispatch_once xs h ht
  · intro id hid
    obtain ⟨d, hd, hat⟩ := (hlog.dispatched id).mp hid
    obtain ⟨hunsent, hreleased⟩ := (hlog.sound hd).dispatched hat
    simp only [DebitState.undispatched, decide_eq_false_iff_not, not_or] at hunsent
    exact ⟨d, hd, hunsent.1, hunsent.2, hreleased⟩
  · intro id d hd
    have hsound := hlog.sound hd
    refine ⟨hsound.cost, hsound.charge, hsound.distinct, ?_⟩
    rintro r rfl hr now persisted accounting kind
    exact replay_step hd (List.mem_map.mp hr) now persisted accounting kind
  · rintro xs ys id d rfl hd hclosed
    rw [run_append]
    exact closed_run hd hclosed ys
  · intro h id d hd hs
    exact Debit.clean_iff.mp (notAccepted_run h hd hs)

/-- An intent of one key. -/
def sampleIntent : DebitIntent where
  id := 1
  apiKeyId := 7
  projectId := none
  runStep := none
  kind := .api
  affinity := 0
  currency := 0
  costBound := 10
  chargeBound := 10
  preparedUntil := 60

/-- Prepare, admit and dispatch the sample. -/
def sampleDispatch : List Tx :=
  [.prepare 0 true sampleIntent 3 [⟨7, .key, .charge⟩], .admitDebit 1 1 3 [(7, .charge)] true,
    .markDispatched 2 1 3 true]

theorem debit_lifecycle_unsent :
    Throughout Ledger.step ProvedUnsent .empty (sampleDispatch ++ [.markNotSent 3 1 3 false]) ∧
      ∀ d ∈ (run Ledger.step .empty (sampleDispatch ++ [.markNotSent 3 1 3 false])).debits.lookup 1,
        d.row.state = .notAccepted → d.row.observedCost = 0 := by
  have h : Throughout Ledger.step ProvedUnsent .empty
      (sampleDispatch ++ [.markNotSent 3 1 3 false]) := by decide
  refine ⟨h, fun d hd hs => ?_⟩
  obtain ⟨-, -, -, -, hclean⟩ := debit_lifecycle (sampleDispatch ++ [.markNotSent 3 1 3 false])
  exact (hclean h 1 d hd hs).1

/-- The transport proves a dispatched debit unsent that a result, complete but not final,
has charged already. -/
def chargedUnsent : List Tx :=
  sampleDispatch ++
    [.settle 3 ⟨1, 20, 21, 22, 5, 5, false, true, []⟩ true [(7, .cost), (7, .charge)],
      .markNotSent 4 1 3 false]

theorem charged_not_accepted :
    ∃ d, (run Ledger.step .empty chargedUnsent).debits.lookup 1 = some d ∧
      d.row.state = .notAccepted ∧ d.row.observedCost = 5 ∧ d.row.observedCharge = 5 ∧
        ∃ r ∈ d.results, r.complete = true ∧ r.cost = 5 ∧ r.charge = 5 := by
  have h : ((run Ledger.step .empty chargedUnsent).debits.lookup 1).any (fun d =>
      d.row.state = .notAccepted ∧ d.row.observedCost = 5 ∧ d.row.observedCharge = 5 ∧
        d.results.any fun r => r.complete = true ∧ r.cost = 5 ∧ r.charge = 5) = true := by
    decide
  obtain ⟨d, hd, h⟩ := (Option.any_eq_true _ _).mp h
  exact ⟨d, hd, by simpa using h⟩

end Olp.Durable
