import Olp.Cost.Standing
import Olp.Run

/-!
# Snapshots form a join

Deliveries of cost snapshots to one owner while a span of one of its windows lasts.  The
balance afterwards is the join of the balance before and of the snapshots of the span
that were accepted, in whatever order and however often they came (`snapshots_join`):
the larger spend, as an exact decimal, and the larger number of unpriced attempts.  Every
snapshot that is sent is accepted, unless its projection of the durable ledger is stale
(`acceptedIn_of_taken`).

Snapshots with bounds and snapshots without do not mix: a balance that records bounds
ignores snapshots without them, while one that records none gives way to both
(`mixed_snapshots_by_order`).
-/

namespace Olp.Cost

open Limits Valkey

variable {σ τ : Server CostKey} {p : Period} {f : Span} {v : Spend}

/-! ## Deliveries -/

/-- A snapshot and the microseconds that pass before it is delivered. -/
structure Delivery where
  wait : Nat
  snapshot : CostSnapshot

/-- The server as a delivery finds it. -/
def Delivery.arrival (d : Delivery) (σ : Server CostKey) : Server CostKey :=
  σ.tick (σ.micros + d.wait)

/-- `ApplyCostSnapshot`, at the end of the wait. -/
def deliver (σ : Server CostKey) (d : Delivery) : Server CostKey :=
  match d.snapshot.call with
  | none => d.arrival σ
  | some (keys, argv) => (reconcileCost keys argv (d.arrival σ)).2

/-- Whether the script accepted a delivery. -/
def accepted (σ : Server CostKey) (d : Delivery) : Bool :=
  match d.snapshot.call with
  | none => false
  | some (keys, argv) =>
    match (reconcileCost keys argv (d.arrival σ)).1 with
    | .ok reply => reply.verdict = .ok
    | .error _ => false

/-- The snapshots accepted in a run. -/
def acceptedIn (σ : Server CostKey) : List Delivery → List CostSnapshot
  | [] => []
  | d :: ds =>
    (if accepted σ d then [d.snapshot] else []) ++ acceptedIn (deliver σ d) ds

/-- What a delivery needs to be accepted: `ApplyCostSnapshot` sends the snapshot, its windows take
a millisecond each, the clock is exact, and no later projection is installed. -/
structure Taken (σ : Server CostKey) (d : Delivery) : Prop where
  sent : d.snapshot.call.isSome = true
  spread : d.snapshot.Spread
  clock : (d.arrival σ).micros / 1000000 ≤ 9007199254739
  fresh : d.snapshot.durable.any (·.stale (d.arrival σ)) = false

/-- The join of the snapshots of a span. -/
def joined (p : Period) (f : Span) (ss : Multiset CostSnapshot) : Spend :=
  ((ss.filter fun s => s.names p f).map fun s => s.spend p).sup

/-- A delivery while the span lasts, of a snapshot that is of the span if its own window
is current, unless the balance records the bounds of the span already. -/
def InSpan (p : Period) (f : Span) (recorded : Prop) (σ : Server CostKey) (d : Delivery) : Prop :=
  f.Current p (d.arrival σ).now ∧
    (recorded ∨ (d.snapshot.spend p ≠ ⊥ → d.snapshot.currentAt p (d.arrival σ).now = true →
      d.snapshot.names p f = true))

theorem CostSnapshot.spend_cases {s : CostSnapshot} (hv : s.validate = true) (p : Period) :
    s.spend p = ⊥ ∧ normalizeDecimal (some (s.accrued p)) = none ∨
      validDecimal (s.accrued p) = true ∧ ∃ q text, decimal? (s.accrued p) = some q ∧
        normalizeDecimal (some (s.accrued p)) = some text ∧
        s.spend p = ((q, if p = .month then s.unpricedAttempts.toNat else 0) : ℚ × ℕ) := by
  have hcases : s.accrued p = [] ∨ validDecimal (s.accrued p) = true := by
    simp only [CostSnapshot.validate, decide_eq_true_eq] at hv
    obtain ⟨-, -, hweekly, hdaily, hmonthly, -⟩ := hv
    cases p with
    | day => exact .inr hdaily
    | month => exact .inr hmonthly
    | week => exact or_iff_not_imp_left.2 fun hne => (hweekly hne).2
  rcases hcases with hnil | hvalid
  · exact .inl (by rw [CostSnapshot.spend, hnil]; exact ⟨rfl, rfl⟩)
  · obtain ⟨text, htext⟩ := validDecimal_normalizes hvalid
    obtain ⟨q, hq, -⟩ := normalizeDecimal_value htext
    exact .inr ⟨hvalid, q, text, hq, htext, by rw [CostSnapshot.spend, hq]⟩

theorem joined_singleton (p : Period) (f : Span) (s : CostSnapshot) :
    joined p f {s} = if s.names p f then s.spend p else ⊥ := by
  unfold joined
  split <;> simp [Multiset.filter_singleton, *]

/-- What an accepted delivery does to a balance. -/
theorem Balance.accept (hb : Balance σ p f v) {s : CostSnapshot} (hv : s.validate = true)
    {parsed : Snapshot} {i : Period → Interval} (hp : s.Planned σ parsed i)
    (hid : (i p).window ≤ maxSafeInteger) (hcur : f.Current p σ.now)
    (hforeign : f.first ≠ none ∧ Marked σ p f ∨
      (s.spend p ≠ ⊥ → s.currentAt p σ.now = true → s.names p f = true))
    (hstore : τ.store (balanceKey p)
      = balanceAfter σ p (i p) (parsed.window p) (parsed.accrued p) parsed.unpriced)
    (hmicros : τ.micros = σ.micros) :
    Balance τ p f (v ⊔ joined p f {s}) ∧ (Marked σ p f → Marked τ p f) ∧
      (s.names p f = true → s.spend p ≠ ⊥ → Marked τ p f) := by
  have hnow : σ.now ≤ τ.now := by rw [Server.now, Server.now, hmicros]
  -- a balance that is left as it was
  have hsame : τ.store (balanceKey p) = σ.store (balanceKey p) →
    s.names p f = false ∨ s.spend p = ⊥ →
      Balance τ p f (v ⊔ joined p f {s}) ∧ (Marked σ p f → Marked τ p f) ∧
        (s.names p f = true → s.spend p ≠ ⊥ → Marked τ p f) := by
    intro hs hno
    have hbot : joined p f {s} = ⊥ := by
      rw [joined_singleton]
      rcases hno with hno | hno <;> simp [hno]
    rw [hbot, sup_bot_eq]
    refine ⟨hb.congr hs hnow, fun hm => hm.congr (Server.hash?_congr hs), fun hn hne => ?_⟩
    rcases hno with hno | hno
    · simp [hno] at hn
    · exact absurd hno hne
  rw [hp.accrued p] at hstore
  rcases s.spend_cases hv p with ⟨hbot, hnone⟩ | ⟨hvalid, q, text, hq, htext, hspend⟩
  · rw [hnone] at hstore
    exact hsame hstore (.inr hbot)
  · have hne : s.spend p ≠ ⊥ := by rw [hspend]; exact WithBot.coe_ne_bot
    by_cases hn : s.names p f = true
    · obtain ⟨hwindow, hi, hbounds⟩ :=
        hp.interval_of_names hn hcur hb.free (by rw [hp.accrued p, htext]; rfl)
      have hwin : (i p).window = f.id := by rw [hi]
      have hactive : (i p).active = true ∧ parsed.window p = some (i p).window := by
        rw [hwin]
        exact ⟨by rw [hi], hwindow⟩
      rw [htext, balanceAfter, if_pos hactive] at hstore
      obtain ⟨hbal, hmarked⟩ := balance_installed (fun _ => hb.free) (hb.standing ▸ hb.amount) hi
        (hwin ▸ hid) hbounds htext hq hvalid hp.unpriced.2 hcur.lt hstore
      refine ⟨?_, fun _ => hmarked, fun _ _ => hmarked⟩
      have hun : s.unpricedAttempts.toNat = parsed.unpriced := by rw [hp.unpriced.1]; rfl
      rw [joined_singleton, if_pos hn, hspend, hun, ← hb.standing]
      exact hbal
    · have hn : s.names p f = false := by simpa using hn
      rw [← hp.accrued p] at hstore
      refine hsame ?_ (.inl hn)
      rw [hstore]
      rcases hforeign with ⟨hfirst, hmarked⟩ | hforeign
      · exact hp.balanceAfter_of_marked hmarked hfirst hcur hn
      · refine hp.balanceAfter_of_not_current ?_
        by_contra hc
        rw [hforeign hne (by simpa using hc)] at hn
        simp at hn

theorem deliver_cases (σ : Server CostKey) (d : Delivery) :
    accepted σ d = false ∧ deliver σ d = d.arrival σ ∨
      accepted σ d = true ∧ ∃ keys argv parsed i e, d.snapshot.call = some (keys, argv) ∧
        planReconcile keys argv (d.arrival σ) = .ok (parsed, i, e) ∧
        deliver σ d = (reconcileCost keys argv (d.arrival σ)).2 := by
  cases hcall : d.snapshot.call with
  | none => exact .inl (by simp [accepted, deliver, hcall])
  | some call =>
    obtain ⟨keys, argv⟩ := call
    cases hplan : planReconcile keys argv (d.arrival σ) with
    | error reply =>
      have hrun : reconcileCost keys argv (d.arrival σ) = (.ok reply, d.arrival σ) := by
        rw [reconcileCost, Script.read_bind, hplan]
        rfl
      exact .inl (by simp [accepted, deliver, hcall, hrun, planReconcile_eq_error hplan])
    | ok plan =>
      obtain ⟨parsed, i, e⟩ := plan
      obtain ⟨reply, τ, hrun, hok, -⟩ := reconcileCost_apply hplan
      exact .inr ⟨by simp [accepted, hcall, hrun, hok], keys, argv, parsed, i, e, rfl, hplan,
        by simp [deliver, hcall]⟩

theorem accepted_of_taken {d : Delivery} (h : Taken σ d) : accepted σ d = true := by
  obtain ⟨⟨keys, argv⟩, hcall⟩ := Option.isSome_iff_exists.1 h.sent
  obtain ⟨⟨parsed, i, e⟩, hplan⟩ := d.snapshot.plan_of_validate hcall h.spread h.clock h.fresh
  obtain ⟨reply, τ, hrun, hok, -⟩ := reconcileCost_apply hplan
  simp [accepted, hcall, hrun, hok]

/-- Deliveries that the script takes are all accepted. -/
theorem acceptedIn_of_taken {ds : List Delivery} (h : Throughout Cost.deliver Taken σ ds) :
    acceptedIn σ ds = ds.map Delivery.snapshot := by
  induction ds generalizing σ with
  | nil => rfl
  | cons d ds ih => rw [acceptedIn, accepted_of_taken h.1, ih h.2]; rfl

theorem Balance.deliver (hb : Balance σ p f v) {d : Delivery} {recorded : Prop}
    (hrec : recorded → f.first ≠ none ∧ v ≠ ⊥ ∧ Marked σ p f) (hd : InSpan p f recorded σ d) :
    Balance (deliver σ d) p f (v ⊔ joined p f (if accepted σ d then {d.snapshot} else 0)) ∧
      (v ≠ ⊥ → Marked σ p f → Marked (Cost.deliver σ d) p f) ∧
      (accepted σ d = true → d.snapshot.names p f = true → d.snapshot.spend p ≠ ⊥ →
        Marked (Cost.deliver σ d) p f) := by
  obtain ⟨hcur, hforeign⟩ := hd
  obtain ⟨hb', hkeep⟩ := hb.tick (t := σ.micros + d.wait) (Nat.le_add_right _ _) hcur
  have hmark : v ≠ ⊥ → Marked σ p f → Marked (d.arrival σ) p f := fun hv hm =>
    hm.congr (Server.hash?_congr (hkeep hv))
  rcases deliver_cases σ d with ⟨hno, hrun⟩ | ⟨hyes, keys, argv, parsed, i, e, hcall, hplan, hrun⟩
  · rw [hno, hrun]
    exact ⟨by simpa [joined] using show Balance (d.arrival σ) p f v from hb', hmark, by simp⟩
  · obtain ⟨reply, τ, happly, -, hmicros, hstore, -⟩ := reconcileCost_apply hplan
    rw [hyes, hrun, happly, if_pos rfl]
    obtain ⟨hbal, hm, hm'⟩ := Balance.accept hb' (d.snapshot.call_eq_some hcall).1
      (d.snapshot.plan_eq hcall hplan) (plan_intervals hplan p).1 hcur
      (hforeign.imp_left fun hr => ⟨(hrec hr).1, hmark (hrec hr).2.1 (hrec hr).2.2⟩)
      (hstore p) hmicros
    exact ⟨hbal, fun hv h => hm (hmark hv h), fun _ => hm'⟩

/-! ## Whole runs -/

theorem joined_add (p : Period) (f : Span) (ss ts : Multiset CostSnapshot) :
    joined p f (ss + ts) = joined p f ss ⊔ joined p f ts := by
  simp [joined]

/-- The balance after a run of deliveries, and that it records the span when it did so
before or when a snapshot of the span was accepted. -/
theorem Balance.run (hb : Balance σ p f v) {recorded : Prop}
    (hrec : recorded → f.first ≠ none ∧ v ≠ ⊥ ∧ Marked σ p f) {ds : List Delivery}
    (hds : Throughout Cost.deliver (InSpan p f recorded) σ ds) :
    Balance (Olp.run Cost.deliver σ ds) p f (v ⊔ joined p f (acceptedIn σ ds)) ∧
      (v ≠ ⊥ ∧ Marked σ p f ∨ joined p f (acceptedIn σ ds) ≠ ⊥ →
        Marked (Olp.run Cost.deliver σ ds) p f) := by
  induction ds generalizing σ v with
  | nil =>
    refine ⟨by simpa [acceptedIn, joined] using hb, ?_⟩
    rintro (⟨-, hm⟩ | hne)
    · exact hm
    · simp [acceptedIn, joined] at hne
  | cons d ds ih =>
    obtain ⟨hd, hds⟩ := hds
    obtain ⟨hbal, hm, hm'⟩ := hb.deliver hrec hd
    have hsplit : joined p f (acceptedIn σ (d :: ds))
        = joined p f (if accepted σ d then {d.snapshot} else 0)
          ⊔ joined p f (acceptedIn (Cost.deliver σ d) ds) := by
      rw [← joined_add, acceptedIn, ← Multiset.coe_add]
      congr 2
      split <;> rfl
    obtain ⟨hfinal, hmarked⟩ := ih hbal (fun hr => by
      obtain ⟨hfirst, hv, hmk⟩ := hrec hr
      exact ⟨hfirst, fun hbot => hv (le_bot_iff.1 (hbot ▸ le_sup_left)), hm hv hmk⟩) hds
    rw [run_cons, hsplit, ← sup_assoc]
    refine ⟨hfinal, ?_⟩
    rintro (⟨hv, hmk⟩ | hne)
    · exact hmarked (.inl ⟨fun hbot => hv (le_bot_iff.1 (hbot ▸ le_sup_left)), hm hv hmk⟩)
    · by_cases hone : joined p f (if accepted σ d then {d.snapshot} else 0) = ⊥
      · rw [hone, bot_sup_eq] at hne
        exact hmarked (.inr hne)
      · refine hmarked (.inl ⟨fun hbot => hone (le_bot_iff.1 (hbot ▸ le_sup_right)), ?_⟩)
        by_cases hacc : accepted σ d = true
        · rw [if_pos hacc, joined_singleton] at hone
          by_cases hn : d.snapshot.names p f = true
          · rw [if_pos hn] at hone
            exact hm' hacc hn hone
          · simp [hn] at hone
        · simp [hacc, joined] at hone

/-- The join depends on which snapshots there are, not on how many of each. -/
theorem joined_congr {ss ts : Multiset CostSnapshot} (h : ∀ s, s ∈ ss ↔ s ∈ ts) :
    joined p f ss = joined p f ts := by
  have hle : ∀ {ss ts : Multiset CostSnapshot}, (∀ s, s ∈ ss → s ∈ ts) →
      joined p f ss ≤ joined p f ts := by
    intro ss ts hsub
    refine Multiset.sup_le.2 fun x hx => Multiset.le_sup ?_
    obtain ⟨s, hs, rfl⟩ := Multiset.mem_map.1 hx
    obtain ⟨hmem, hn⟩ := Multiset.mem_filter.1 hs
    exact Multiset.mem_map.2 ⟨s, Multiset.mem_filter.2 ⟨hsub s hmem, hn⟩, rfl⟩
  exact le_antisymm (hle fun s => (h s).1) (hle fun s => (h s).2)

theorem acceptedIn_append (σ : Server CostKey) (xs ys : List Delivery) :
    acceptedIn σ (xs ++ ys) = acceptedIn σ xs ++ acceptedIn (run deliver σ xs) ys := by
  induction xs generalizing σ with
  | nil => rfl
  | cons d xs ih => simp [acceptedIn, ih]

/-- While a span lasts, a balance is the join of what it was and of the accepted snapshots
of the span, which are all that are sent when none carries a stale projection: no delivery lowers
it, snapshots of other windows do not change it, and every two runs that accept the same
snapshots end alike.  `reserve_cost.lua` reads the spend, cut at the largest amount. -/
theorem snapshots_join (σ : Server CostKey) (p : Period) (f : Span) (v : Spend)
    (hb : Balance σ p f v) (ds : List Delivery)
    (hds : Throughout deliver (InSpan p f (f.first ≠ none ∧ v ≠ ⊥ ∧ Marked σ p f)) σ ds) :
    standing (run deliver σ ds) p f.id = v ⊔ joined p f (acceptedIn σ ds) ∧
      (Throughout deliver Taken σ ds → acceptedIn σ ds = ds.map Delivery.snapshot) ∧
      (∀ xs, xs <+: ds → standing (run deliver σ xs) p f.id ≤ standing (run deliver σ ds) p f.id) ∧
      (∀ es, Throughout deliver (InSpan p f (f.first ≠ none ∧ v ≠ ⊥ ∧ Marked σ p f)) σ es →
        (∀ s, s ∈ acceptedIn σ es ↔ s ∈ acceptedIn σ ds) →
        standing (run deliver σ es) p f.id = standing (run deliver σ ds) p f.id) ∧
      (v ≠ ⊥ ∧ Marked σ p f ∨ joined p f (acceptedIn σ ds) ≠ ⊥ →
        ∀ t q n, (run deliver σ ds).micros ≤ t → f.Current p (t / 1000) →
          standing (run deliver σ ds) p f.id = ((q, n) : ℚ × ℕ) →
          ∃ rd, readState ((run deliver σ ds).tick t) p (windowAt (t / 1000) p)
            (t / 1000) = some rd ∧
            rd.state = .current ∧ rd.window.id = f.id ∧
            (rd.spent.units : ℚ) = min (q * 10 ^ scale) Amount.capUnits) := by
  have hfinal : ∀ {es}, Throughout deliver
      (InSpan p f (f.first ≠ none ∧ v ≠ ⊥ ∧ Marked σ p f)) σ es →
      standing (run deliver σ es) p f.id = v ⊔ joined p f (acceptedIn σ es) :=
    fun hes => (hb.run id hes).1.standing
  obtain ⟨hbal, hmark⟩ := hb.run id hds
  refine ⟨hbal.standing, acceptedIn_of_taken, ?_, fun es hes hsame => ?_, ?_⟩
  · rintro xs ⟨ys, rfl⟩
    rw [hbal.standing, hfinal (throughout_append.1 hds).1, acceptedIn_append, ← Multiset.coe_add,
      joined_add, ← sup_assoc]
    exact le_sup_left
  · rw [hfinal hes, hfinal hds]
    congr 1
    exact joined_congr (by simpa using hsame)
  · intro hwhen t q n ht hcur hv
    obtain ⟨hb', hkeep⟩ := hbal.tick ht hcur
    have hne : v ⊔ joined p f (acceptedIn σ ds) ≠ ⊥ := by
      rw [← hbal.standing, hv]
      exact WithBot.coe_ne_bot
    exact readState_of_marked hb' ((hmark hwhen).congr (Server.hash?_congr (hkeep hne))) hcur
      (hbal.standing.symm.trans hv)

theorem balance_of_none (f : Span) (h : σ.store (balanceKey p) = none) : Balance σ p f ⊥ :=
  ⟨standing_of_none h _, free_of_none h, fun hv => absurd rfl hv, fun hv => absurd rfl hv⟩

/-! Two snapshots of November 14, 2023: one with the bounds of its calendar, one that
leaves them to the script. -/

def sampleDay : Span := ⟨19675, some 1699920000000, 1700006400000⟩

/-- A snapshot of that day. -/
def daySnapshot (accrued : Text) (withBounds : Bool) : CostSnapshot where
  windowId := fun | .day => 19675 | .month => 24286 | .week => 2811
  accrued := fun | .week => [] | _ => accrued
  unpricedAttempts := 0
  starts _ := if withBounds then 1699920000000000000 else zeroTime
  ends _ := if withBounds then 1700006400000000000 else zeroTime
  requestId := none
  durable := none

/-- Noon of that day, on a server that knows nothing of the owner. -/
def noonServer : Server CostKey := ⟨1699963200000000, fun _ => none⟩

/-- Four deliveries of three snapshots, the largest twice. -/
def dayDeliveries : List Delivery :=
  [⟨0, daySnapshot ['5'] true⟩, ⟨1000, daySnapshot ['9'] true⟩,
    ⟨1000, daySnapshot "7.5".toList true⟩, ⟨0, daySnapshot ['9'] true⟩]

theorem snapshots_join_dayDeliveries :
    standing (run deliver noonServer dayDeliveries) .day 19675 = ((9, 0) : ℚ × ℕ) := by
  have hone : ∀ {σ : Server CostKey} {d : Delivery} {recorded : Prop},
      (1699920000000 ≤ (d.arrival σ).now ∧ (d.arrival σ).now < 1700006400000) →
      d.snapshot.names .day sampleDay = true → InSpan .day sampleDay recorded σ d :=
    fun hcur hn => ⟨hcur, .inr fun _ _ => hn⟩
  refine (snapshots_join noonServer .day sampleDay ⊥ (balance_of_none _ rfl) dayDeliveries
    ⟨hone ?_ ?_, hone ?_ ?_, hone ?_ ?_, hone ?_ ?_, trivial⟩).1.trans ?_
  all_goals decide +kernel

/-- Of two snapshots of one day, both accepted, the order decides what the balance comes
to when one of them brings bounds and the other does not. -/
theorem mixed_snapshots_by_order :
    (daySnapshot ['5'] true).validate = true ∧ (daySnapshot ['9'] false).validate = true ∧
      (acceptedIn noonServer
        [⟨0, daySnapshot ['5'] true⟩, ⟨0, daySnapshot ['9'] false⟩]).length = 2 ∧
      (acceptedIn noonServer
        [⟨0, daySnapshot ['9'] false⟩, ⟨0, daySnapshot ['5'] true⟩]).length = 2 ∧
      standing (run deliver noonServer
        [⟨0, daySnapshot ['5'] true⟩, ⟨0, daySnapshot ['9'] false⟩]) .day 19675
          = ((5, 0) : ℚ × ℕ) ∧
      standing (run deliver noonServer
        [⟨0, daySnapshot ['9'] false⟩, ⟨0, daySnapshot ['5'] true⟩]) .day 19675
          = ((9, 0) : ℚ × ℕ) := by
  decide +kernel

end Olp.Cost
