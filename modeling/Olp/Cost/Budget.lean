import Olp.Cost.Bookkeeping

/-!
# No overspend

What a window of an owner may come to is its accrued balance, the durable exposure when
the call carries the owner's durable key, and the exact sum of every held lease
(`outlay`).  Right after a grant it is within the configured limit and the increases
active at that instant (`ceiling`), and it stays there under settlements that raise no
lease and reconciliations that install no more than they release
(`grant_within_ceiling`).

A redelivery of a lease that is held for the amount or more is granted without a look
at the limits, so the balance may have grown past them meanwhile
(`redelivery_past_ceiling`).
-/

namespace Olp.Cost

open Limits Valkey Option

/-- What is spent in a window, with the durable exposure where it counts. -/
def spentIn (σ : Server CostKey) (p : Period) (withDurable : Bool) : ℚ :=
  accrued σ p + if withDurable then durable σ else 0

/-- What a window may come to: what is spent and what is held. -/
def outlay (σ : Server CostKey) (p : Period) (withDurable : Bool) : ℚ :=
  spentIn σ p withDurable + heldUnits σ / 10 ^ scale

/-- The limit of a window in a call's arguments and its increases at an instant. -/
def ceiling (cjson : Text → Option (List Grant)) (argv : List Text) (now : Nat) (p : Period)
    (id : Nat) : ℚ :=
  (((parseLimit (some (limitArg argv p))).elim 0 Amount.units
    + activeIncrease cjson (arg argv 8) now p id : Nat) : ℚ) / 10 ^ scale

/-- The amount a lease is held for. -/
def leaseAmount (σ : Server CostKey) (m : Text) : Option Amount :=
  parseAmount ((σ.hash? .pending).toOption.bind (·.lookup m))

def Ledger.atCall (l : Ledger) (e : Event) : Server CostKey :=
  l.server.tick (l.server.micros + e.wait)

/-- What a reconciliation that names a request releases. -/
def released (σ : Server CostKey) (request : Text) : ℚ :=
  if request = [] then 0 else (((leaseAmount σ request).elim 0 Amount.units : Nat) : ℚ) / 10 ^ scale

/-- A settlement that raises no lease, or a reconciliation after which no more is spent
than before, except for what it releases. -/
def Ledger.Harmless (cjson : Text → Option (List Grant)) (p : Period) (withDurable : Bool)
    (l : Ledger) (e : Event) : Prop :=
  match e.call with
  | .reserve _ _ => False
  | .settle keys argv => ∀ s a, parseSettlement keys argv = some s →
      leaseAmount (l.atCall e) s.lease = some a → s.amount.units ≤ a.units
  | .reconcile _ argv => spentIn (l.step cjson e).server p withDurable
      ≤ spentIn (l.atCall e) p withDurable + released (l.atCall e) (arg argv 7)

/-! ## Spent amounts -/

theorem decimal?_nonneg {raw : Text} {q : ℚ} (h : decimal? raw = some q) : 0 ≤ q := by
  obtain ⟨⟨w, f⟩, -, rfl⟩ := map_eq_some_iff.1 h
  simp only [Text.rat]
  positivity

theorem decimalField_nonneg (σ : Server CostKey) (k : CostKey) (f : Text) :
    0 ≤ decimalField σ k f := by
  unfold decimalField
  cases h : ((σ.hash? k).toOption.bind (·.lookup f)).bind decimal? with
  | none => simp
  | some q =>
    obtain ⟨raw, -, hq⟩ := bind_eq_some_iff.1 h
    exact decimal?_nonneg hq

theorem decimalField_tick_le (σ : Server CostKey) (t : Nat) (k : CostKey) (f : Text) :
    decimalField (σ.tick t) k f ≤ decimalField σ k f := by
  rcases σ.tick_store_cases t k with hs | hs
  · have : decimalField (σ.tick t) k f = 0 := by
      simp [decimalField, Server.hash?_of_none hs, Except.toOption]
    rw [this]
    exact decimalField_nonneg σ k f
  · rw [decimalField, decimalField, Server.hash?_congr hs]

theorem spentIn_tick_le (σ : Server CostKey) (t : Nat) (p : Period) (withDurable : Bool) :
    spentIn (σ.tick t) p withDurable ≤ spentIn σ p withDurable := by
  refine add_le_add (decimalField_tick_le σ t _ _) ?_
  split
  · exact decimalField_tick_le σ t _ _
  · exact le_rfl

variable {σ τ : Server CostKey}

theorem Untouched.spentIn (h : Untouched σ τ) (p : Period) (withDurable : Bool) :
    spentIn τ p withDurable = spentIn σ p withDurable := by
  have hp : τ.hash? (balanceKey p) = σ.hash? (balanceKey p) :=
    Server.hash?_congr_value (h.value _ (by cases p <;> decide) (by cases p <;> decide))
  have hd : τ.hash? .durable = σ.hash? .durable :=
    Server.hash?_congr_value (h.value _ (by decide) (by decide))
  simp only [Cost.spentIn, accrued, durable, decimalField, hp, hd]

theorem Untouched.storedWindow (h : Untouched σ τ) (p : Period) :
    storedWindow τ p = storedWindow σ p := by
  have hp : τ.hash? (balanceKey p) = σ.hash? (balanceKey p) :=
    Server.hash?_congr_value (h.value _ (by cases p <;> decide) (by cases p <;> decide))
  simp only [Cost.storedWindow, hp]

/-! ## Held amounts -/

theorem Represents.leaseAmount {L : Holds} (hr : Represents σ L) {m : Text} (hm : m ≠ sumField) :
    leaseAmount σ m = (L.lookup m).map Hold.amount := by
  cases hr with
  | empty hp he hL =>
    simp [Cost.leaseAmount, Server.hash?_of_none hp, Except.toOption, hL]
  | held h z t d hk =>
    simp only [Cost.leaseAmount, hk.hash?, Except.toOption, bind_some, hk.records.amounts m hm]
    cases L.lookup m <;> simp [Hold.text]

variable {L : Holds}

theorem worth_settleHolds_le {now : Nat} {s : Settlement}
    (h : ∀ x, L.lookup s.lease = some x → s.amount.units ≤ x.amount.units) :
    worth (settleHolds now s L) ≤ worth L := by
  unfold settleHolds
  split
  · exact le_rfl
  · rename_i x hx
    rw [worth, worth, Table.total_eq_add_erase _ hx]
    split
    · exact Nat.le_add_left _ _
    · rw [Table.total_insert]
      exact Nat.add_le_add_right (h x hx) _

theorem worth_accountHolds {request : Text} (hne : request ≠ []) :
    worth (accountHolds request L) + (L.lookup request).elim 0 Hold.units = worth L := by
  rw [accountHolds, if_neg hne]
  cases hx : L.lookup request with
  | none => rw [Table.erase_of_notMem (Finmap.lookup_eq_none.1 hx)]; rfl
  | some x =>
    rw [worth, worth, Table.total_eq_add_erase (fun _ => Hold.units) hx]
    exact Nat.add_comm _ _

/-! ## The two halves -/

variable {p : Period} (cjson : Text → Option (List Grant))

/-- Right after a grant that is no redelivery, every window with a limit is within its
ceiling. -/
theorem grant_outlay_le (hr : Represents σ L) (hlt : worth L < Amount.capUnits) {keys : Nat}
    {argv : List Text} (hzero : number argv 3 = some 0) {reply : Reply}
    (hrun : reserveCost cjson keys argv σ = (.ok reply, τ)) {r : Request}
    (hgrant : granted keys argv reply = some r) (hnot : ¬ Redelivery σ.now r L)
    (hp : limitArg argv p ≠ []) : ∃ id, storedWindow τ p = some id ∧
      outlay τ p (keys = 6) ≤ ceiling cjson argv σ.now p id := by
  obtain ⟨reply', τ', gone, hrun', hun, -, heffect⟩ := reserveCost_effect cjson hr hlt keys hzero
  obtain ⟨rfl, rfl⟩ : reply' = reply ∧ τ' = τ := by
    rw [hrun'] at hrun
    simpa using hrun
  rcases heffect with ⟨hre, -⟩ | ⟨r', a, hgrant', -, hassess, hrep, hfits⟩
  · exact absurd (hre r hgrant) hnot
  · obtain rfl : r' = r := some.inj (hgrant'.symm.trans hgrant)
    obtain ⟨-, hparse, -, -⟩ := granted_eq_some hgrant
    have hparsed := parseReserve_eq_some hparse
    have hassessed := assess_eq_ok hparsed.limit_lt hassess
    have hnow : a.nowMs = σ.now := by
      have hover : r'.override = 0 := some.inj (hparsed.override.symm.trans hzero)
      exact (currentTime_zero (hover ▸ hassessed.time)).1
    obtain ⟨base, hbase⟩ := hparsed.limited p hp
    obtain ⟨l, hl, hcap, hunits⟩ := hassessed.configured p base hbase
    rw [hnow] at hunits
    obtain ⟨-, hspent⟩ := hassessed.spent p l hl
    have hfit := hfits p l hl hcap
    rw [hparsed.durable] at hspent
    refine ⟨(a.window p).id, (hun.storedWindow p).trans (hassessed.stored p l hl), ?_⟩
    have hlimit : parseLimit (some (limitArg argv p)) = some base := by
      rw [← hbase, hparsed.limit, if_neg hp]
    have hscale : (0 : ℚ) < 10 ^ scale := by positivity
    rw [outlay, hun.spentIn, spentIn, ceiling, hlimit, heldUnits_eq hrep, ← hparsed.increases,
      elim_some, ← hunits, le_div_iff₀ hscale, add_mul, div_mul_cancel₀ _ hscale.ne',
      hspent]
    exact_mod_cast hfit

/-- A harmless step raises the outlay of no window. -/
theorem harmless_outlay_le {withDurable : Bool} {l : Ledger}
    {e : Event} (hl : l.Sound) (hh : l.Harmless cjson p withDurable e) :
    outlay (l.step cjson e).server p withDurable ≤ outlay l.server p withDurable := by
  obtain ⟨L, hr, hlt, -⟩ := hl
  obtain ⟨L₁, hr₁, hle, -⟩ := hr.tick (Nat.le_add_right l.server.micros e.wait)
  have hlt₁ := hle.trans_lt hlt
  have hscale : (0 : ℚ) < 10 ^ scale := by positivity
  have hspent := spentIn_tick_le l.server (l.server.micros + e.wait) p withDurable
  -- it is enough that the step does not raise the outlay it finds
  suffices hstep : spentIn (l.step cjson e).server p withDurable * 10 ^ scale
      + heldUnits (l.step cjson e).server ≤ spentIn (l.atCall e) p withDurable * 10 ^ scale
        + worth L₁ by
    have hheld : (worth L₁ : ℚ) ≤ heldUnits l.server := by
      rw [heldUnits_eq hr]
      exact_mod_cast hle
    rw [outlay, outlay, ← mul_le_mul_iff_left₀ hscale, add_mul, add_mul,
      div_mul_cancel₀ _ hscale.ne', div_mul_cancel₀ _ hscale.ne']
    have := mul_le_mul_of_nonneg_right hspent hscale.le
    unfold Ledger.atCall at hstep
    linarith
  obtain ⟨wait, call⟩ := e
  cases call with
  | reserve keys argv => exact hh.elim
  | settle keys argv =>
    obtain ⟨reply, τ, hrun, hapart, heffect⟩ := settleCost_effect hr₁ hlt₁ keys argv
    have hserver : (l.step cjson ⟨wait, .settle keys argv⟩).server = τ := by
      simp only [Ledger.step, perform, Call.script, hrun]
    rw [hserver, hapart.untouched.spentIn]
    have hheld : heldUnits τ ≤ worth L₁ := by
      rcases heffect with ⟨-, hrep⟩ | ⟨s, gone, hparse, -, -, hrep⟩
      · rw [heldUnits_eq hrep]
      · rw [heldUnits_eq hrep]
        refine (worth_settleHolds_le fun x hx => ?_).trans (Table.total_eraseAll_le _ L₁ gone)
        have hx₁ : L₁.lookup s.lease = some x := by
          rw [Table.lookup_eraseAll] at hx
          split at hx
          · simp at hx
          · exact hx
        refine hh s x.amount hparse ?_
        rw [Ledger.atCall, hr₁.leaseAmount
          (ne_sumField_of_validLease (parseSettlement_valid hparse)), hx₁]
        rfl
    have : (heldUnits τ : ℚ) ≤ worth L₁ := by exact_mod_cast hheld
    unfold Ledger.atCall
    linarith
  | reconcile keys argv =>
    obtain ⟨reply, τ, hrun, -, heffect⟩ := reconcileCost_effect hr₁ hlt₁ keys argv
    have hserver : (l.step cjson ⟨wait, .reconcile keys argv⟩).server = τ := by
      simp only [Ledger.step, perform, Call.script, hrun]
    have hh' : spentIn (l.step cjson ⟨wait, .reconcile keys argv⟩).server p withDurable
        ≤ spentIn (l.atCall ⟨wait, .reconcile keys argv⟩) p withDurable
          + released (l.atCall ⟨wait, .reconcile keys argv⟩) (arg argv 7) := hh
    rw [hserver] at hh' ⊢
    rcases heffect with ⟨-, rfl⟩ | ⟨-, hvalid, hrep⟩
    · rw [heldUnits_eq hr₁]
      exact le_rfl
    · have hmul := mul_le_mul_of_nonneg_right hh' hscale.le
      have hheld : released (l.atCall ⟨wait, .reconcile keys argv⟩) (arg argv 7) * 10 ^ scale
          + heldUnits τ ≤ worth L₁ := by
        rw [heldUnits_eq hrep]
        unfold released
        by_cases hreq : arg argv 7 = []
        · simp [hreq, accountHolds]
        · have hlease : leaseAmount (l.atCall ⟨wait, .reconcile keys argv⟩) (arg argv 7)
              = (L₁.lookup (arg argv 7)).map Hold.amount :=
            hr₁.leaseAmount (ne_sumField_of_validLease (hvalid hreq))
          have hunits : ((L₁.lookup (arg argv 7)).map Hold.amount).elim 0 Amount.units
              = (L₁.lookup (arg argv 7)).elim 0 Hold.units := by
            cases L₁.lookup (arg argv 7) <;> rfl
          have hsplit := worth_accountHolds (L := L₁) hreq
          rw [if_neg hreq, div_mul_cancel₀ _ hscale.ne', hlease, hunits]
          exact_mod_cast (Nat.add_comm _ _).trans_le hsplit.le
      linarith

/-! ## Whole runs -/

/-- From a server without pending keys, every bounded run is sound. -/
theorem Ledger.run_sound (hp : σ.store .pending = none) (he : σ.store .expiry = none)
    {es : List Event} (h : Throughout (Ledger.step cjson) (Ledger.Bounded cjson) (.start σ) es) :
    (run (Ledger.step cjson) (.start σ) es).Sound :=
  run_invariant (Ledger.step_sound cjson) h
    ⟨∅, .empty hp he rfl, by decide, fun m => by simp [Ledger.start]⟩

/-- **The server holds what it promised.**  From a server without pending keys, after every run of
calls that take the server's own time and whose held total stays exact, and at any later instant, a
lease is on the server with an amount and an expiry that is to come exactly when the replies left
it so. -/
theorem holds_are_promised (cjson : Text → Option (List Grant)) (σ : Server CostKey)
    (hp : σ.store .pending = none) (he : σ.store .expiry = none) (es : List Event)
    (h : Throughout (Ledger.step cjson) (Ledger.Bounded cjson) (.start σ) es) (t : Nat)
    (ht : (run (Ledger.step cjson) (.start σ) es).server.micros ≤ t) (m : Text) (hm : m ≠ sumField)
    (x : Hold) (hx : t / 1000 < x.expires) :
    (hget .pending m ((run (Ledger.step cjson) (.start σ) es).server.tick t)).1 =
      .ok (some x.text) ∧
        (zscore .expiry m ((run (Ledger.step cjson) (.start σ) es).server.tick t)).1
          = .ok (some x.expires) ↔
      (run (Ledger.step cjson) (.start σ) es).expected m = some x := by
  obtain ⟨L, hr, -, ha⟩ := (Ledger.run_sound cjson hp he h).tick ht
  obtain ⟨hpending, hexpiry⟩ := hr.read hm
  rw [hpending, hexpiry, ← ha.lookup_iff hx]
  cases L.lookup m with
  | none => simp
  | some y =>
    simp only [map_some, Except.ok.injEq, some.injEq]
    constructor
    · rintro ⟨htext, hexpires⟩
      have hamount := congrArg (fun t => parseAmount (some t)) htext
      simp only [Hold.text, parseAmount_formatAmount, some.injEq] at hamount
      cases y
      cases x
      simp_all
    · rintro rfl
      exact ⟨rfl, rfl⟩

theorem holds_are_promised_sampleRun :
    (hget .pending sampleLease
      ((run (Ledger.step noIncreases) (.start blankServer) sampleRun).server.tick
      1700000002000000)).1 = .ok (some (formatAmount ⟨3, 0, by decide, by decide⟩)) :=
  ((holds_are_promised noIncreases blankServer rfl rfl sampleRun
    ⟨⟨by decide, by decide⟩, ⟨trivial, by decide⟩, trivial⟩ 1700000002000000 (by decide) sampleLease
    (by decide) ⟨⟨3, 0, by decide, by decide⟩, 1700000031000⟩ (by decide)).2 (by decide)).1

/-- Harmless calls never increase the outlay of a window. -/
theorem harmless_run_outlay_le {withDurable : Bool} {l : Ledger} {es : List Event} (hl : l.Sound)
    (hb : Throughout (Ledger.step cjson) (Ledger.Bounded cjson) l es)
    (hh : Throughout (Ledger.step cjson) (Ledger.Harmless cjson p withDurable) l es) :
    outlay (run (Ledger.step cjson) l es).server p withDurable ≤ outlay l.server p withDurable := by
  induction es generalizing l with
  | nil => exact le_rfl
  | cons e es ih =>
    exact (ih (Ledger.step_sound cjson l e hl hb.1) hb.2 hh.2).trans
      (harmless_outlay_le cjson hl hh.1)

/-- After a run, a grant that is no redelivery and any number of harmless calls, every
window with a limit is within the ceiling it had at the grant. -/
theorem grant_within_ceiling (cjson : Text → Option (List Grant)) (σ : Server CostKey)
    (hp : σ.store .pending = none) (he : σ.store .expiry = none) (es fs : List Event)
    (wait keys : Nat) (argv : List Text)
    (h : Throughout (Ledger.step cjson) (Ledger.Bounded cjson) (.start σ)
      (es ++ ⟨wait, .reserve keys argv⟩ :: fs))
    (reply : Reply) (τ : Server CostKey)
    (hrun : perform cjson (run (Ledger.step cjson) (.start σ) es).server ⟨wait, .reserve keys argv⟩
      = (.ok reply, τ))
    (r : Request) (hgrant : granted keys argv reply = some r)
    (hfirst : covers τ.now r ((run (Ledger.step cjson) (.start σ) es).expected r.lease) = false)
    (p : Period) (hlimit : limitArg argv p ≠ [])
    (hfs : Throughout (Ledger.step cjson) (Ledger.Harmless cjson p (keys = 6))
      (run (Ledger.step cjson) (.start σ) (es ++ [⟨wait, .reserve keys argv⟩])) fs) :
    ∃ id, storedWindow τ p = some id ∧
      outlay (run (Ledger.step cjson) (.start σ) (es ++ ⟨wait, .reserve keys argv⟩ :: fs)).server
        p (keys = 6) ≤ ceiling cjson argv τ.now p id := by
  rw [← List.singleton_append, ← List.append_assoc] at h ⊢
  obtain ⟨hes, hlater⟩ := throughout_append.1 h
  have hgrantStep := (throughout_append.1 hes).2.1
  have hmid := Ledger.run_sound cjson hp he hes
  rw [run_append] at hmid hfs hlater ⊢
  rw [run_append] at ⊢
  have hbefore := Ledger.run_sound cjson hp he (throughout_append.1 hes).1
  generalize run (Ledger.step cjson) (.start σ) es = l at *
  have hserver : (run (Ledger.step cjson) l [⟨wait, .reserve keys argv⟩]).server = τ := by
    simp only [run_cons, run_nil, Ledger.step, hrun]
  -- the grant itself
  obtain ⟨L, hr, hlt, ha⟩ := hbefore
  obtain ⟨L₁, hr₁, hle, hsame⟩ := hr.tick (Nat.le_add_right l.server.micros wait)
  have hnow : τ.now = (l.server.tick (l.server.micros + wait)).now := by
    obtain ⟨reply', τ', gone, hrun', hun, -⟩ :=
      reserveCost_effect cjson hr₁ (hle.trans_lt hlt) keys hgrantStep.1
    have : τ' = τ := by
      have := hrun'.symm.trans hrun
      simpa using (Prod.ext_iff.1 this).2
    exact this ▸ hun.now
  have ha₁ : Agrees τ.now L₁ l.expected := fun m => by
    rw [hnow, Server.tick_now, hsame]
    exact live_mono (Nat.div_le_div_right (Nat.le_add_right _ _)) (ha m)
  have hnot : ¬ Redelivery (l.server.tick (l.server.micros + wait)).now r L₁ := by
    rw [← hnow, ha₁.redelivery, hfirst]
    simp
  obtain ⟨id, hid, houtlay⟩ := grant_outlay_le cjson hr₁ (hle.trans_lt hlt) hgrantStep.1 hrun
    hgrant hnot hlimit
  refine ⟨id, hid, ?_⟩
  rw [hnow]
  exact (harmless_run_outlay_le cjson hmid hlater hfs).trans (hserver ▸ houtlay)

/-! A budget of 10 a day in which 4 are spent, a lease of 5, and snapshots that account
for it or for other requests. -/

/-- The arguments of a reservation of 5 against a daily limit of 10. -/
def reserveFive : List Text := ["10".toList, [], ['0'], ['5'], sampleLease, "60000".toList]

/-- A snapshot of the day's spend that accounts for a request. -/
def snapshotOf (accrued request : Text) : Event :=
  ⟨0, .reconcile 4 ["19675".toList, accrued, "24286".toList, accrued, ['0'], ['0'], request]⟩

def grantReply : Reply := ⟨.ok, .ok, [0, 19675, 24286]⟩

theorem ceiling_reserveFive (now id : Nat) : ceiling noIncreases reserveFive now .day id = 10 := by
  have hlimit :
      (parseLimit (some (limitArg reserveFive .day))).elim 0 Amount.units = 10 * unit := by
    decide
  have hnone : arg reserveFive 8 = [] := by decide
  rw [ceiling, hlimit, activeIncrease, if_pos hnone]
  norm_num [unit, scale]

theorem grant_within_ceiling_reserveFive :
    outlay (run (Ledger.step noIncreases) (.start blankServer)
      [snapshotOf ['4'] [], ⟨0, .reserve 4 reserveFive⟩, snapshotOf ['9'] sampleLease]).server
        .day false ≤ 10 := by
  obtain ⟨id, -, hle⟩ := grant_within_ceiling noIncreases blankServer rfl rfl
    [snapshotOf ['4'] []] [snapshotOf ['9'] sampleLease] 0 4 reserveFive
    ⟨⟨by decide, by decide⟩, ⟨by decide, by decide⟩, ⟨by decide, by decide⟩, trivial⟩
    grantReply _ (Prod.ext (by decide) rfl)
    ((granted 4 reserveFive grantReply).get (by decide)) (some_get _).symm
    (by decide) .day (by decide)
    ⟨by
      change spentIn _ _ _ ≤ spentIn _ _ _ + released _ _
      decide +kernel, trivial⟩
  rw [ceiling_reserveFive] at hle
  exact hle

/-- Other requests accrue 5 between two deliveries of one lease. -/
def redelivered : List Event :=
  [snapshotOf ['4'] [], ⟨0, .reserve 4 reserveFive⟩, snapshotOf ['9'] []]

/-- The second delivery is granted although 9 are spent and 5 are held of a limit
of 10. -/
theorem redelivery_past_ceiling :
    blankServer.store .pending = none ∧ blankServer.store .expiry = none ∧
      Throughout (Ledger.step noIncreases) (Ledger.Bounded noIncreases) (.start blankServer)
        (redelivered ++ [⟨0, .reserve 4 reserveFive⟩]) ∧
      ∃ τ, perform noIncreases
        (run (Ledger.step noIncreases) (.start blankServer) redelivered).server
          ⟨0, .reserve 4 reserveFive⟩ = (.ok grantReply, τ) ∧
        (granted 4 reserveFive grantReply).any (0 < ·.amount.units) ∧
        storedWindow τ .day = some 19675 ∧
        ceiling noIncreases reserveFive τ.now .day 19675 = 10 ∧ outlay τ .day false = 14 :=
  ⟨rfl, rfl,
    ⟨⟨by decide, by decide⟩, ⟨by decide, by decide⟩,
      ⟨by decide, by decide⟩, ⟨by decide, by decide⟩, trivial⟩,
    (perform noIncreases (run (Ledger.step noIncreases) (.start blankServer) redelivered).server
      ⟨0, .reserve 4 reserveFive⟩).2,
    Prod.ext (by decide) rfl, by decide, by decide,
    ceiling_reserveFive _ _, by decide +kernel⟩

end Olp.Cost
