import Olp.Cost.Join
import Olp.Cost.Budget
import Olp.Budget.Calendar

/-!
# Snapshots read back

The text that `reconcile_cost.lua` leaves in a balance is read by `reserve_cost.lua`, whose
reader is stricter: it wants an amount of at most twelve decimal places and bounds in
pairs.  `Legible` says that a balance has what the reader wants.  Every call of the three
scripts keeps it as long as snapshots come from `ApplyCostSnapshot`
(`legible_run`), so a snapshot that is reported as installed is read as current for as
long as its window lasts, whatever reaches the owner's keys meanwhile
(`reconciled_snapshot_reads_back`).  The exception is a snapshot that leaves its bounds to the
script: it gives way to one with bounds, and those may end sooner (`shorter_calendar_missing`).
-/

namespace Olp.Cost

open Limits Valkey

variable {σ τ : Server CostKey} {p : Period}

/-! ## Legible balances -/

/-- No end without a start, and a spend that is an amount to `reserve_cost.lua`. -/
def Legible (p : Period) (σ : Server CostKey) : Prop :=
  ∀ h, σ.hash? (balanceKey p) = .ok h →
    (h.lookup startsField = none → h.lookup endsField = none) ∧
      ∀ text, h.lookup accruedField = some text → (parseAmount (some text)).isSome

theorem Legible.congr (hl : Legible p σ) (hh : τ.hash? (balanceKey p) = σ.hash? (balanceKey p)) :
    Legible p τ := fun h hok => hl h (hh ▸ hok)

theorem legible_of_none (h : σ.store (balanceKey p) = none) : Legible p σ := by
  intro fields hok
  cases (Server.hash?_of_none h).symm.trans hok
  exact ⟨fun _ => rfl, by simp⟩

theorem Legible.tick (hl : Legible p σ) (t : Nat) : Legible p (σ.tick t) := by
  rcases σ.tick_store_cases t (balanceKey p) with hnone | hsame
  · exact legible_of_none hnone
  · exact hl.congr (Server.hash?_congr hsame)

theorem Legible.only {k : CostKey} (hk : balanceKey p ≠ k) (σ τ : Server CostKey)
    (h : Server.Only k σ τ) (hl : Legible p σ) : Legible p τ :=
  hl.congr (Server.hash?_congr (h.store _ hk))

theorem Legible.pexpire (hl : Legible p σ) (ttl : Nat) :
    Legible p (σ.pexpire (balanceKey p) ttl) := by
  cases he : σ.store (balanceKey p) with
  | none => simpa [Server.pexpire, he] using hl
  | some e =>
    by_cases hzero : ttl = 0
    · exact legible_of_none (by simp [Server.pexpire, he, hzero])
    · obtain ⟨value, deadline⟩ := e
      refine hl.congr ?_
      simp only [Server.hash?, Server.pexpire_store_self he hzero, he]
      cases value <;> rfl

theorem Balance.legible {f : Span} {v : Spend} (hb : Balance σ p f v) (hm : Marked σ p f)
    (hv : v ≠ ⊥) : Legible p σ := by
  obtain ⟨h, hok, -, hmarks⟩ := hm
  intro fields hfields
  cases hok.symm.trans hfields
  refine ⟨fun hnone => ?_, fun text htext => ?_⟩
  · split at hmarks
    · exact hmarks.2
    · simp [hnone, parseSafeUnsignedInteger] at hmarks
  · have := hb.amount hv
    rw [hok] at this
    change (parseAmount (h.lookup accruedField)).isSome at this
    rwa [htext] at this

/-! ## What the scripts keep -/

section Pending

open Script.Keeps

variable {P : Server CostKey → Prop} (hp : ∀ σ τ, Server.Only .pending σ τ → P σ → P τ)
  (he : ∀ σ τ, Server.Only .expiry σ τ → P σ → P τ)

include hp he

theorem keeps_dropPending : Script.Keeps P dropPending := fun σ h =>
  he (σ.del .pending) _ ⟨rfl, fun _ hj => Server.del_store_ne _ hj⟩
    (hp σ _ ⟨rfl, fun _ hj => Server.del_store_ne σ hj⟩ h)

theorem keeps_closeSweep (sum : Amount) : Script.Keeps P (closeSweep sum) := by
  refine .bind (.query _) fun fields => ?_
  split
  · exact .bind (keeps_dropPending hp he) fun _ => .pure _
  · exact .bind (hset hp _) fun _ => .pure _

theorem keeps_pendingTotal (nowMs : Nat) (readOnly : Bool) :
    Script.Keeps P (pendingTotal nowMs readOnly) := by
  refine .bind (.read _) fun books => ?_
  split
  · split
    · exact .pure _
    · exact .bind (keeps_dropPending hp he) fun _ => .pure _
  · exact .pure _
  · refine .bind (.query _) fun expired => ?_
    split
    · exact .pure _
    · refine .bind (.query _) fun amounts => ?_
      split
      · exact .pure _
      · exact .bind (hdel hp _) fun _ => .bind (zrem he _) fun _ => keeps_closeSweep hp he _

theorem keeps_storeLease (lease : Text) (amount total : Amount) (expiresMs : Nat)
    (lowerOnly : Bool) : Script.Keeps P (storeLease lease amount total expiresMs lowerOnly) := by
  refine .bind (hset hp _) fun _ => ?_
  split
  · exact zaddLt he _ _
  · exact zadd he _ _

theorem keeps_outlive (expiresMs nowMs : Nat) : Script.Keeps P (outlive expiresMs nowMs) :=
  .bind (.read _) fun _ => .bind (pexpire hp _) fun _ => pexpire he _

theorem keeps_removeLease (lease : Text) (amount : Option Text) (sum : Amount) :
    Script.Keeps P (removeLease lease amount sum) := by
  refine .bind (.query _) fun fields => ?_
  split
  · exact keeps_dropPending hp he
  · refine .bind (hdel hp _) fun _ => .bind (.pcall (zrem he _)) fun answer => ?_
    split
    · exact keeps_dropPending hp he
    · exact hset hp _

theorem keeps_releaseLease (lease : Text) : Script.Keeps P (releaseLease lease) := by
  refine .bind (.pcall (.query _)) fun answer => ?_
  split
  · exact .bind (keeps_dropPending hp he) fun _ => .pure _
  · exact .bind (keeps_removeLease hp he _ _ _) fun _ => .pure _
  · exact .pure _

theorem keeps_settleCost (keys : Nat) (argv : List Text) :
    Script.Keeps P (settleCost keys argv) := by
  unfold settleCost
  split
  · exact .pure _
  · refine .bind (.read _) fun time => ?_
    split
    · exact .pure _
    · refine .bind (keeps_pendingTotal hp he _ _) fun sum => .bind (.query _) fun held => ?_
      split
      · exact .pure _
      · refine .bind (.query _) fun expiry => ?_
        split
        · exact .bind (keeps_removeLease hp he _ _ _) fun _ => .pure _
        · split
          · exact .bind (keeps_removeLease hp he _ _ _) fun _ => .pure _
          · exact .bind (keeps_storeLease hp he _ _ _ _ _) fun _ => .pure _

theorem keeps_admitPriced (r : Request) (a : Assessment) : Script.Keeps P (admitPriced r a) := by
  refine .bind (keeps_pendingTotal hp he _ _) fun held => .bind (.query _) fun recorded => ?_
  split
  · exact .pure _
  · refine .bind (.query _) fun amount => ?_
    split
    · exact .pure _
    · split
      · split
        · exact .pure _
        · exact .pure _
      · exact .bind (keeps_releaseLease hp he _) fun _ => .pure _

/-- A reservation keeps what does not depend on the pending keys and outlasts the deadlines
of the balances. -/
theorem keeps_reserveCost
    (hb : ∀ σ p ttl, σ.pttl (balanceKey p) < 1 → P σ → P (σ.pexpire (balanceKey p) ttl))
    (cjson : Text → Option (List Grant)) (keys : Nat) (argv : List Text) :
    Script.Keeps P (reserveCost cjson keys argv) := by
  have hrefresh : ∀ a p, Script.Keeps P (refreshBalance a p) := fun a p => .write fun σ h => by
    split
    · next hpttl => exact hb σ p _ hpttl.2 h
    · exact h
  have hall : ∀ a, Script.Keeps P (refreshBalances a) := fun a =>
    .bind (hrefresh a .day) fun _ => .bind (hrefresh a .month) fun _ => hrefresh a .week
  unfold reserveCost
  split
  · exact .pure _
  · refine .bind (.read _) fun assessed => ?_
    split
    · exact .pure _
    · split
      · unfold reserve
        split
        · refine .bind (keeps_admitPriced hp he _ _) fun admitted => ?_
          split
          · exact .pure _
          · exact .bind (hall _) fun _ => .bind (.bind (keeps_storeLease hp he _ _ _ _ _) fun _ =>
              keeps_outlive hp he _ _) fun _ => .pure _
        · exact .bind (hall _) fun _ => .pure _
      · refine .bind (keeps_pendingTotal hp he _ _) fun held => ?_
        split
        · exact .pure _
        · exact .pure _

end Pending

/-! ## One snapshot -/

theorem windowAt_end {s t : Nat} (h : (windowAt s p).id = (windowAt t p).id) :
    s + (windowAt s p).ttl = t + (windowAt t p).ttl := by
  obtain ⟨hs, -, hends⟩ := BudgetCalendar.windowAt_period s p
  obtain ⟨ht, -, hendt⟩ := BudgetCalendar.windowAt_period t p
  rw [← hs, h, ht, ← hendt] at hends
  exact_mod_cast hends

variable {i : Period → Interval} {parsed : Snapshot} {s : CostSnapshot}

/-- The span of a snapshot that is installed lasts as long as the window of the snapshot. -/
theorem CostSnapshot.Planned.span (hp : s.Planned σ parsed i) (hactive : (i p).active = true)
    (hw : parsed.window p = some (i p).window) :
    ∃ f : Span, i p = ⟨f.id, f.last - σ.now, true, f.first.map fun a => (a, f.last)⟩ ∧
      f.Current p σ.now ∧ (f.first = none → unbounded σ p = true) ∧
      (∀ a, f.first = some a → a ≤ maxSafeInteger ∧ f.last ≤ maxSafeInteger) ∧
      s.windowId p = f.id ∧ (f.first ≠ none ↔ s.bounds p ≠ none) ∧
      ∀ t, s.currentAt p t = true → f.Current p t := by
  have hid := hp.window p _ hw
  cases hb : s.bounds p with
  | none =>
    have hi := hp.calendar p hb
    rw [hi] at hactive hid
    obtain ⟨-, hpos, -⟩ := BudgetCalendar.windowAt_period σ.now p
    refine ⟨⟨(windowAt σ.now p).id, none, σ.now + (windowAt σ.now p).ttl⟩, ?_, ?_,
      fun _ => hactive, by simp, hid, by simp, fun t ht => ?_⟩
    · rw [hi, Nat.add_sub_cancel_left]
      simpa using hactive
    · exact ⟨by simp, Nat.lt_add_of_pos_right hpos⟩
    · have heq : (windowAt σ.now p).id = (windowAt t p).id := by
        simp only [CostSnapshot.currentAt, hb, decide_eq_true_eq] at ht
        exact_mod_cast hid.symm.trans ht
      obtain ⟨-, hpos', -⟩ := BudgetCalendar.windowAt_period t p
      have hend := windowAt_end heq
      unfold Span.Current
      dsimp only
      rw [heq, hend, Nat.add_sub_cancel_left]
      exact ⟨rfl, by omega⟩
  | some bounds =>
    obtain ⟨a, b⟩ := bounds
    obtain ⟨first, last, window, rfl, rfl, hmax, hmax', -, hi⟩ := hp.bounds p a b hb
    rw [hi] at hactive hid
    simp only [decide_eq_true_eq] at hactive
    refine ⟨⟨window, some first, last⟩, ?_, ⟨hactive.1, hactive.2.1⟩, by simp,
      fun a ha => ?_, hid, by simp, fun t ht => ?_⟩
    · rw [hi]
      simpa using hactive
    · cases ha
      exact ⟨hmax, hmax'⟩
    · simp only [CostSnapshot.currentAt, hb, decide_eq_true_eq] at ht
      exact ⟨by exact_mod_cast ht.1, by exact_mod_cast ht.2⟩

theorem balanceAfter_of_not_installs (h : installs parsed i p = false) :
    balanceAfter σ p (i p) (parsed.window p) (parsed.accrued p) parsed.unpriced
      = σ.store (balanceKey p) := by
  cases ha : parsed.accrued p with
  | none => rfl
  | some accrued =>
    simp only [installs, ha, Option.isSome_some, true_and, decide_eq_false_iff_not] at h
    exact if_neg h

/-- A snapshot that is installed in a legible balance. -/
theorem Legible.install (hl : Legible p σ) (hv : s.validate = true) (hp : s.Planned σ parsed i)
    (hid : (i p).window ≤ maxSafeInteger) (hi : installs parsed i p = true)
    (hstore : τ.store (balanceKey p)
      = balanceAfter σ p (i p) (parsed.window p) (parsed.accrued p) parsed.unpriced) :
    ∃ (f : Span) (q : ℚ) (n : ℕ), decimal? (s.accrued p) = some q ∧ s.windowId p = f.id ∧
      Balance τ p f (standing σ p f.id ⊔ ((q, n) : ℚ × ℕ)) ∧ Marked τ p f ∧
      (∀ e, τ.store (balanceKey p) = some e → e.deadline.isSome = true) ∧ f.Current p σ.now ∧
      (f.first ≠ none ↔ s.bounds p ≠ none) ∧ ∀ t, s.currentAt p t = true → f.Current p t := by
  simp only [installs, decide_eq_true_eq] at hi
  obtain ⟨haccrued, hactive, hw⟩ := hi
  obtain ⟨f, hspan, hcur, hfirst, hbounds, hwid, hiff, hlater⟩ := hp.span hactive hw
  have hwin : (i p).window = f.id := by rw [hspan]
  rw [hp.accrued p] at haccrued hstore
  rcases s.spend_cases hv p with ⟨-, hnone⟩ | ⟨hvalid, q, text, hq, htext, -⟩
  · simp [hnone] at haccrued
  · rw [htext, balanceAfter, if_pos ⟨hactive, hw⟩] at hstore
    have hfree : f.first = none → Free σ p f := by
      intro hf h hok
      have hstarts : h.lookup startsField = none := by
        simpa [unbounded, hok] using hfirst hf
      rw [hf]
      exact ⟨hstarts, (hl h hok).1 hstarts⟩
    have hamount : standing σ p f.id ≠ ⊥ → (parseAmount
        ((σ.hash? (balanceKey p)).toOption.bind (·.lookup accruedField))).isSome := by
      intro hne
      cases hc : currentBalance σ p f.id with
      | none => simp [standing, hc] at hne
      | some current =>
        obtain ⟨h, raw, hok, -, hraw, -⟩ := currentBalance_eq_some hc
        rw [hok]
        change (parseAmount (h.lookup accruedField)).isSome
        rw [hraw]
        exact (hl h hok).2 raw hraw
    obtain ⟨hbal, hmarked⟩ := balance_installed hfree hamount hspan (hwin ▸ hid) hbounds htext hq
      hvalid hp.unpriced.2 hcur.lt hstore
    refine ⟨f, q, _, hq, hwid, hbal, hmarked, fun e he => ?_, hcur, hiff, hlater⟩
    cases hstore.symm.trans he
    rfl

theorem Legible.reconcile (hl : Legible p σ) {keys : Nat} {argv : List Text}
    (hcall : s.call = some (keys, argv)) : Legible p (reconcileCost keys argv σ).2 := by
  cases hplan : planReconcile keys argv σ with
  | error reply =>
    rw [reconcileCost, Script.read_bind, hplan]
    exact hl
  | ok plan =>
    obtain ⟨parsed, i, d⟩ := plan
    obtain ⟨reply, τ, hrun, -, -, hstore, -⟩ := reconcileCost_apply hplan
    rw [hrun]
    cases hi : installs parsed i p with
    | false =>
      refine hl.congr (Server.hash?_congr ?_)
      rw [hstore p, balanceAfter_of_not_installs hi]
    | true =>
      obtain ⟨f, q, n, -, -, hbal, hmarked, -, -, -, -⟩ := hl.install (s.call_eq_some hcall).1
        (s.plan_eq hcall hplan) (plan_intervals hplan p).1 hi (hstore p)
      refine hbal.legible hmarked fun hbot => ?_
      exact WithBot.coe_ne_bot (le_bot_iff.1 (hbot ▸ le_sup_right))

/-! ## Whole runs -/

/-- What reaches the keys of an owner: any call of `reserve_cost.lua` or `settle_cost.lua`,
and the snapshots that `ApplyCostSnapshot` is given. -/
inductive Traffic
  | reserve (keys : Nat) (argv : List Text)
  | settle (keys : Nat) (argv : List Text)
  | snapshot (s : CostSnapshot)

variable (cjson : Text → Option (List Grant))

/-- The server after one of them; a snapshot that fails its checks is not sent. -/
def Traffic.apply (σ : Server CostKey) :
    Traffic → Server CostKey
  | .reserve keys argv => (reserveCost cjson keys argv σ).2
  | .settle keys argv => (settleCost keys argv σ).2
  | .snapshot s =>
    match s.call with
    | none => σ
    | some (keys, argv) => (reconcileCost keys argv σ).2

/-- The same once some microseconds have passed. -/
def serve (σ : Server CostKey) (e : Nat × Traffic) : Server CostKey :=
  e.2.apply cjson (σ.tick (σ.micros + e.1))

theorem Legible.serve (hl : Legible p σ) (cjson : Text → Option (List Grant)) (e : Nat × Traffic) :
    Legible p (serve cjson σ e) := by
  obtain ⟨wait, traffic⟩ := e
  have hl' := hl.tick (σ.micros + wait)
  have hpending := Legible.only (p := p) (k := .pending) (by cases p <;> decide)
  have hexpiry := Legible.only (p := p) (k := .expiry) (by cases p <;> decide)
  cases traffic with
  | reserve keys argv =>
    refine keeps_reserveCost hpending hexpiry (fun σ p' ttl _ h => ?_) cjson keys argv _ hl'
    by_cases hp : p' = p
    · rw [hp]
      exact h.pexpire ttl
    · refine h.congr (Server.hash?_congr (Server.pexpire_store_ne σ ttl ?_))
      cases p <;> cases p' <;> simp_all [balanceKey]
  | settle keys argv => exact keeps_settleCost hpending hexpiry keys argv _ hl'
  | snapshot s =>
    unfold Cost.serve Traffic.apply
    dsimp only
    split
    · exact hl'
    · rename_i hcall
      exact hl'.reconcile hcall

/-- No traffic makes a balance illegible. -/
theorem legible_run (hl : Legible p σ)
    (es : List (Nat × Traffic)) : Legible p (run (serve cjson) σ es) :=
  run_induction (fun _ e h => h.serve cjson e) es hl

/-! ## What a reply reports -/

/-- The spend that a balance of a window holds, nothing when it is not one. -/
def storedSpend (σ : Server CostKey) (p : Period) (window : Nat) : ℚ :=
  match currentBalance σ p window with
  | none => 0
  | some (accrued, _) => (decimal? accrued).getD 0

/-- The join with what stands keeps the larger spend. -/
theorem standing_sup (σ : Server CostKey) (p : Period) (window : Nat) {q : ℚ} (hq : 0 ≤ q) (n : ℕ) :
    ∃ m : ℕ, standing σ p window ⊔ ((q, n) : ℚ × ℕ)
      = ((max q (storedSpend σ p window), m) : ℚ × ℕ) := by
  unfold standing storedSpend
  cases currentBalance σ p window with
  | none => exact ⟨n, by simp [hq]⟩
  | some current =>
    refine ⟨max current.2 n, ?_⟩
    rw [max_comm q, ← WithBot.coe_sup]
    rfl

/-- What the reply says of a period; it says nothing of weeks. -/
def Reply.reconciled (reply : Reply) : Period → Bool
  | .day => reply.verdict = .ok ∧ reply.results[0]? = some 1
  | .month => reply.verdict = .ok ∧ reply.results[1]? = some 1
  | .week => false

/-- Whether a call installs the spend of a period, which the reply leaves out for weeks. -/
def reconciles (keys : Nat) (argv : List Text) (σ : Server CostKey) (p : Period) : Bool :=
  match planReconcile keys argv σ with
  | .error _ => false
  | .ok (s, i, _) => installs s i p

/-- A reply that reports a window as reconciled comes from a call that reconciled it. -/
theorem reconciles_of_reply {keys : Nat} {argv : List Text} {reply : Reply}
    (hrun : reconcileCost keys argv σ = (.ok reply, τ)) (h : reply.reconciled p = true) :
    reconciles keys argv σ p = true := by
  unfold reconciles
  cases hplan : planReconcile keys argv σ with
  | error failure =>
    rw [reconcileCost, Script.read_bind, hplan] at hrun
    obtain rfl : failure = reply := by simpa using congrArg Prod.fst hrun
    cases p <;> simp [Reply.reconciled, planReconcile_eq_error hplan] at h
  | ok plan =>
    obtain ⟨reply', τ', hrun', rfl, -⟩ := reconcileCost_apply hplan
    cases congrArg Prod.fst (hrun'.symm.trans hrun)
    cases p with
    | day | month => simpa [Reply.reconciled] using h
    | week => simp [Reply.reconciled] at h

/-! ## A balance that stands -/

theorem windowAt_between {a b c : Nat} (h : (windowAt a p).id = (windowAt b p).id) (hab : a ≤ c)
    (hcb : c ≤ b) : (windowAt a p).id = (windowAt c p).id := by
  have hmono := (@Budget.periodStart_gc p).monotone_u
  have ha := (BudgetCalendar.windowAt_period a p).1
  have hb := (BudgetCalendar.windowAt_period b p).1
  have hc := (BudgetCalendar.windowAt_period c p).1
  have h₁ := hmono (show (a : ℤ) / 86400000 ≤ (c : ℤ) / 86400000 by omega)
  have h₂ := hmono (show (c : ℤ) / 86400000 ≤ (b : ℤ) / 86400000 by omega)
  omega

variable {f : Span} {v : Spend}

theorem Span.Current.between {a b c : Nat} (ha : f.Current p a) (hb : f.Current p b) (hab : a ≤ c)
    (hcb : c ≤ b) : f.Current p c := by
  unfold Span.Current at *
  cases hfirst : f.first with
  | none =>
    simp only [hfirst] at ha hb ⊢
    obtain ⟨ha, -⟩ := ha
    obtain ⟨hb, hlt⟩ := hb
    have hid := windowAt_between (p := p) (by rw [ha, hb]) hab hcb
    have hend := windowAt_end hid
    refine ⟨?_, by omega⟩
    rw [show windowAt c p = ⟨(windowAt c p).id, (windowAt c p).ttl⟩ from rfl, ← hid, ha]
    congr 1
    rw [ha] at hend
    dsimp only at hend
    omega
  | some first =>
    simp only [hfirst] at ha hb ⊢
    omega

/-- A balance that records a span, comes to something in it, and is kept for as long. -/
structure Stands (p : Period) (f : Span) (v : Spend) (σ : Server CostKey) : Prop where
  balance : Balance σ p f v
  marked : Marked σ p f
  held : v ≠ ⊥
  timed : ∀ e, σ.store (balanceKey p) = some e → e.deadline.isSome = true

theorem Stands.congr (h : Stands p f v σ) (hs : τ.store (balanceKey p) = σ.store (balanceKey p))
    (hm : σ.micros ≤ τ.micros) : Stands p f v τ :=
  ⟨h.balance.congr hs (Nat.div_le_div_right hm), h.marked.congr (Server.hash?_congr hs), h.held,
    fun e he => h.timed e (hs ▸ he)⟩

theorem Stands.tick (h : Stands p f v σ) {t : Nat} (ht : σ.micros ≤ t)
    (hcur : f.Current p (t / 1000)) : Stands p f v (σ.tick t) :=
  h.congr ((h.balance.tick ht hcur).2 h.held) ht

/-- Within the span the balance has time left. -/
theorem Stands.pttl (h : Stands p f v σ) (hcur : f.Current p σ.now) :
    1 ≤ σ.pttl (balanceKey p) := by
  obtain ⟨⟨value, deadline⟩, he⟩ := exists_entry_of_standing (h.balance.standing ▸ h.held)
  obtain ⟨d, hd⟩ := Option.isSome_iff_exists.1 (h.timed _ he)
  have hlast := h.balance.lasts h.held _ d he hd
  have := hcur.lt
  dsimp only at hd
  simp only [Server.pttl, he, hd]
  omega

/-- A call of `reserve_cost.lua` or `settle_cost.lua` leaves the balance alone. -/
theorem Stands.untouched (h : Stands p f v σ) (hcur : f.Current p σ.now)
    (cjson : Text → Option (List Grant)) (keys : Nat) (argv : List Text) :
    Stands p f v (reserveCost cjson keys argv σ).2 ∧ Stands p f v (settleCost keys argv σ).2 := by
  let P (τ : Server CostKey) : Prop :=
    τ.micros = σ.micros ∧ τ.store (balanceKey p) = σ.store (balanceKey p)
  have hstands (τ : Server CostKey) (hτ : P τ) : Stands p f v τ := h.congr hτ.2 hτ.1.ge
  have honly (k : CostKey) (hk : balanceKey p ≠ k) (τ υ : Server CostKey) (ho : Server.Only k τ υ)
      (hτ : P τ) : P υ := ⟨ho.micros.trans hτ.1, (ho.store _ hk).trans hτ.2⟩
  have hpending := honly .pending (by cases p <;> decide)
  have hexpiry := honly .expiry (by cases p <;> decide)
  refine ⟨hstands _ (keeps_reserveCost hpending hexpiry (fun τ p' ttl hpttl hτ => ?_) cjson keys
    argv σ ⟨rfl, rfl⟩), hstands _ (keeps_settleCost hpending hexpiry keys argv σ ⟨rfl, rfl⟩)⟩
  by_cases hp : p' = p
  · subst hp
    have hnow : τ.now = σ.now := congrArg (· / 1000) hτ.1
    have := (hstands τ hτ).pttl (hnow ▸ hcur)
    omega
  · refine ⟨(Server.pexpire_micros ..).trans hτ.1, (Server.pexpire_store_ne τ ttl ?_).trans hτ.2⟩
    cases p <;> cases p' <;> simp_all [balanceKey]

theorem timed_balanceAfter {snapshot : Option Nat} {accrued : Option Text} {unpriced : Nat}
    {i : Interval} (h : ∀ e, σ.store (balanceKey p) = some e → e.deadline.isSome = true)
    (e : Entry) (he : balanceAfter σ p i snapshot accrued unpriced = some e) :
    e.deadline.isSome = true := by
  unfold balanceAfter at he
  split at he
  · exact h e he
  · split at he
    · cases he
      rfl
    · exact h e he

/-- A snapshot may raise a balance; it does not end it, unless the balance has no bounds and the
snapshot has. -/
theorem Stands.deliver (h : Stands p f v σ) {d : Delivery} (hcur : f.Current p (d.arrival σ).now)
    (hbounds : f.first ≠ none ∨ d.snapshot.bounds p = none) :
    ∃ v', v ≤ v' ∧ Stands p f v' (deliver σ d) := by
  have hspan : InSpan p f (f.first ≠ none) σ d := by
    refine ⟨hcur, or_iff_not_imp_left.2 fun hfirst _ hnow => ?_⟩
    have hnone := hbounds.resolve_left hfirst
    simp only [not_not] at hfirst
    simp only [Span.Current, hfirst] at hcur
    simpa [CostSnapshot.currentAt, CostSnapshot.names, hnone, hfirst, hcur.1] using hnow
  obtain ⟨hbal, hmark, -⟩ := h.balance.deliver (fun hf => ⟨hf, h.held, h.marked⟩) hspan
  refine ⟨_, le_sup_left, hbal, hmark h.held h.marked,
    fun hbot => h.held (le_bot_iff.1 (hbot ▸ le_sup_left)), ?_⟩
  have htimed := (h.tick (Nat.le_add_right σ.micros d.wait) hcur).timed
  rcases deliver_cases σ d with ⟨-, hrun⟩ | ⟨-, keys, argv, parsed, i, e, -, hplan, hrun⟩
  · rw [hrun]
    exact htimed
  · obtain ⟨reply, τ, happly, -, -, hstore, -⟩ := reconcileCost_apply hplan
    rw [hrun, happly, hstore p]
    exact timed_balanceAfter htimed

theorem Stands.serve (h : Stands p f v σ) (cjson : Text → Option (List Grant)) (e : Nat × Traffic)
    (hcur : f.Current p ((σ.micros + e.1) / 1000))
    (hbounds : f.first ≠ none ∨ ∀ s, e.2 = .snapshot s → s.bounds p = none) :
    ∃ v', v ≤ v' ∧ Stands p f v' (serve cjson σ e) ∧ ((∀ s, e.2 ≠ .snapshot s) → v' = v) := by
  obtain ⟨wait, traffic⟩ := e
  have htick := h.tick (Nat.le_add_right σ.micros wait) hcur
  cases traffic with
  | reserve keys argv =>
    exact ⟨v, le_rfl, (htick.untouched hcur cjson keys argv).1, fun _ => rfl⟩
  | settle keys argv =>
    exact ⟨v, le_rfl, (htick.untouched hcur cjson keys argv).2, fun _ => rfl⟩
  | snapshot s =>
    obtain ⟨v', hle, hstands⟩ :=
        h.deliver (d := ⟨wait, s⟩) hcur (hbounds.imp_right fun hb => hb s rfl)
    exact ⟨v', hle, hstands, fun hno => absurd rfl (hno s)⟩

theorem serve_micros (σ : Server CostKey) (e : Nat × Traffic) :
    (serve cjson σ e).micros = σ.micros + e.1 := by
  obtain ⟨wait, traffic⟩ := e
  let P (τ : Server CostKey) : Prop := τ.micros = σ.micros + wait
  have honly (k : CostKey) (τ υ : Server CostKey) (ho : Server.Only k τ υ) (hτ : P τ) : P υ :=
    ho.micros.trans hτ
  cases traffic with
  | reserve keys argv =>
    exact keeps_reserveCost (honly .pending) (honly .expiry)
      (fun τ p' ttl _ hτ => (Server.pexpire_micros ..).trans hτ) cjson keys argv _ rfl
  | settle keys argv => exact keeps_settleCost (honly .pending) (honly .expiry) keys argv _ rfl
  | snapshot s =>
    rcases deliver_cases σ ⟨wait, s⟩ with ⟨-, hrun⟩ | ⟨-, keys, argv, parsed, i, e, -, hplan, hrun⟩
    · exact congrArg Server.micros hrun
    · obtain ⟨reply, τ, happly, -, hmicros, -⟩ := reconcileCost_apply hplan
      exact (congrArg Server.micros (hrun.trans (congrArg Prod.snd happly))).trans hmicros

theorem run_micros_le (σ : Server CostKey)
    (es : List (Nat × Traffic)) : σ.micros ≤ (run (serve cjson) σ es).micros :=
  run_induction (P := fun τ => σ.micros ≤ τ.micros)
    (fun τ e h => h.trans ((serve_micros cjson τ e).symm ▸ Nat.le_add_right _ _)) es le_rfl

/-- The balance stands through every run of calls within its span. -/
theorem Stands.run (h : Stands p f v σ) (cjson : Text → Option (List Grant))
    {es : List (Nat × Traffic)}
    {t : Nat} (ht : (run (Cost.serve cjson) σ es).micros ≤ t) (hstart : f.Current p σ.now)
    (hend : f.Current p (t / 1000))
    (hbounds : f.first ≠ none ∨ ∀ e ∈ es, ∀ s, e.2 = .snapshot s → s.bounds p = none) :
    ∃ v', v ≤ v' ∧ Stands p f v' (run (Cost.serve cjson) σ es) ∧
      ((∀ e ∈ es, ∀ s, e.2 ≠ .snapshot s) → v' = v) := by
  induction es generalizing σ v with
  | nil => exact ⟨v, le_rfl, h, fun _ => rfl⟩
  | cons e es ih =>
    have hmicros := serve_micros cjson σ e
    have hle := (run_micros_le cjson (Cost.serve cjson σ e) es).trans ht
    have hcur : f.Current p ((σ.micros + e.1) / 1000) := hstart.between hend
      (Nat.div_le_div_right (Nat.le_add_right _ _)) (Nat.div_le_div_right (hmicros ▸ hle))
    obtain ⟨v₁, hle₁, h₁, hsame₁⟩ := h.serve cjson e hcur
      (hbounds.imp_right fun hb => hb e (List.mem_cons_self ..))
    obtain ⟨v₂, hle₂, h₂, hsame₂⟩ := ih h₁ ht (by rw [Server.now, hmicros]; exact hcur)
      (hbounds.imp_right fun hb e' he' => hb e' (List.mem_cons_of_mem _ he'))
    refine ⟨v₂, hle₁.trans hle₂, h₂, fun hno => ?_⟩
    rw [List.forall_mem_cons] at hno
    rw [hsame₂ hno.2, hsame₁ hno.1]

/-! ## Read back -/

/-- Whatever reached an owner's keys before and reaches them later, a snapshot that is reported as
installed is read as current at every later instant of its window, with the exact spend it carried
or a higher one that stood there or came since, cut at the largest amount.  A snapshot without
bounds needs that no later one has them. -/
theorem reconciled_snapshot_reads_back (cjson : Text → Option (List Grant)) (σ : Server CostKey)
    (p : Period) (hσ : σ.store (balanceKey p) = none) (es : List (Nat × Traffic)) (wait : Nat)
    (s : CostSnapshot) (keys : Nat) (argv : List Text) (hcall : s.call = some (keys, argv))
    (ρ : Server CostKey)
    (hρ : ρ = (run (serve cjson) σ es).tick ((run (serve cjson) σ es).micros + wait))
    (reply : Reply) (τ : Server CostKey) (hrun : reconcileCost keys argv ρ = (.ok reply, τ))
    (hrec : reply.reconciled p = true ∨ p = .week ∧ reconciles keys argv ρ .week = true)
    (later : List (Nat × Traffic))
    (hlater : s.bounds p ≠ none ∨ ∀ e ∈ later, ∀ s', e.2 = .snapshot s' → s'.bounds p = none) :
    ∃ q, decimal? (s.accrued p) = some q ∧
      ∀ t, (run (serve cjson) τ later).micros ≤ t → s.currentAt p (t / 1000) = true →
        ∃ (rd : Reading) (w : ℚ), readState ((run (serve cjson) τ later).tick t) p
            (windowAt (t / 1000) p) (t / 1000) = some rd ∧
          rd.state = .current ∧ (rd.window.id : Int) = s.windowId p ∧
          (rd.spent.units : ℚ) = min (w * 10 ^ scale) Amount.capUnits ∧
          max q (storedSpend ρ p (s.windowId p).toNat) ≤ w ∧
          ((∀ e ∈ later, ∀ s', e.2 ≠ .snapshot s') →
            w = max q (storedSpend ρ p (s.windowId p).toNat)) := by
  have hl : Legible p ρ := hρ ▸ (legible_run cjson (legible_of_none hσ) es).tick _
  have hrec : reconciles keys argv ρ p = true := by
    rcases hrec with hrec | ⟨rfl, hrec⟩
    · exact reconciles_of_reply hrun hrec
    · exact hrec
  unfold reconciles at hrec
  split at hrec
  · simp at hrec
  · rename_i parsed i d hplan
    obtain ⟨reply', τ', hrun', -, hmicros, hstore, -⟩ := reconcileCost_apply hplan
    obtain rfl : τ' = τ := congrArg Prod.snd (hrun'.symm.trans hrun)
    obtain ⟨f, q, n, hq, hid, hbal, hmarked, htimed, hcur, hfirst, hinside⟩ :=
      hl.install (s.call_eq_some hcall).1 (s.plan_eq hcall hplan) (plan_intervals hplan p).1 hrec
        (hstore p)
    refine ⟨q, hq, fun t ht hnow => ?_⟩
    obtain ⟨m, hm⟩ := standing_sup ρ p f.id (decimal?_nonneg hq) n
    rw [hm] at hbal
    have hstands : Stands p f _ τ' := ⟨hbal, hmarked, WithBot.coe_ne_bot, htimed⟩
    obtain ⟨v, hle, hstands', hsame⟩ := hstands.run cjson ht (by rwa [Server.now, hmicros])
      (hinside _ hnow) (hlater.imp_left hfirst.mpr)
    have hstands'' := hstands'.tick ht (hinside _ hnow)
    obtain ⟨⟨w, k⟩, hv⟩ := WithBot.ne_bot_iff_exists.1 hstands'.held
    obtain ⟨rd, hread, hstate, hrid, hunits⟩ := readState_of_marked hstands''.balance
      hstands''.marked (hinside _ hnow) hv.symm
    refine ⟨rd, w, hread, hstate, by rw [hrid, hid], hunits, ?_, fun hno => ?_⟩
    · rw [← hv, WithBot.coe_le_coe] at hle
      rw [hid, Int.toNat_natCast]
      exact hle.1
    · rw [← hv, WithBot.coe_inj] at hsame
      rw [hid, Int.toNat_natCast]
      exact congrArg Prod.fst (hsame hno)

/-- The server of noon after a snapshot and a call that is turned down. -/
def afterNoon : Server CostKey :=
  run (serve fun _ => none) noonServer
    [(0, .snapshot (daySnapshot ['9'] true)), (5, .reserve 0 [])]

/-- The same once a lower snapshot has followed. -/
def afterLower : Except Fault Reply × Server CostKey :=
  reconcileCost 5 (daySnapshot "7.25".toList true).balanceArgs
    (afterNoon.tick (afterNoon.micros + 1000))

/-- A settlement that finds nothing to settle, and a snapshot with other bounds. -/
def eveningTraffic : List (Nat × Traffic) :=
  [(1000, .settle 2 []), (1000, .snapshot (daySnapshot ['8'] false))]

theorem reconciled_snapshot_reads_back_evening :
    ∃ (rd : Reading) (w : ℚ),
      readState ((run (serve fun _ => none) afterLower.2 eveningTraffic).tick
        1700006399000000) .day (windowAt 1700006399000 .day) 1700006399000 = some rd ∧
      rd.state = .current ∧
        (rd.spent.units : ℚ) = min (w * 10 ^ scale) Amount.capUnits ∧ 9 ≤ w := by
  have hanswer : afterLower.1 = .ok ⟨.ok, .ok, [1, 1]⟩ := by decide
  have hrun : afterLower = (.ok ⟨.ok, .ok, [1, 1]⟩, afterLower.2) := by
    rw [← hanswer, Prod.mk.eta]
  obtain ⟨q, -, hread⟩ := reconciled_snapshot_reads_back (fun _ => none) noonServer .day rfl
    [(0, .snapshot (daySnapshot ['9'] true)), (5, .reserve 0 [])] 1000
    (daySnapshot "7.25".toList true) 5 (daySnapshot "7.25".toList true).balanceArgs
    (by decide) (afterNoon.tick (afterNoon.micros + 1000)) rfl _ _ hrun
    (.inl (by decide)) eveningTraffic (.inl (by decide))
  obtain ⟨rd, w, hrd, hstate, -, hunits, hw, -⟩ := hread 1700006399000000 (by decide) (by decide)
  refine ⟨rd, w, hrd, hstate, hunits, le_trans ?_ ((le_max_right _ _).trans hw)⟩
  decide +kernel

/-- A snapshot of the day that lets it end at six. -/
def shortDay : CostSnapshot :=
  { daySnapshot ['3'] true with ends := fun _ => 1699984800000000000 }

/-- Of a snapshot that leaves the bounds of the day to the script nothing is left at seven, once
one that lets the day end at six has followed; both are accepted for the day. -/
theorem shorter_calendar_missing :
    (daySnapshot ['9'] false).validate = true ∧ shortDay.validate = true ∧
      (reconcileCost 5 (daySnapshot ['9'] false).balanceArgs noonServer).1
        = .ok ⟨.ok, .ok, [1, 1]⟩ ∧
      (reconcileCost 5 shortDay.balanceArgs
        (reconcileCost 5 (daySnapshot ['9'] false).balanceArgs noonServer).2).1
        = .ok ⟨.ok, .ok, [1, 1]⟩ ∧
      (daySnapshot ['9'] false).currentAt .day 1699988400000 = true ∧
      (readState ((reconcileCost 5 shortDay.balanceArgs
        (reconcileCost 5 (daySnapshot ['9'] false).balanceArgs noonServer).2).2.tick
          1699988400000000) .day (windowAt 1699988400000 .day) 1699988400000).map Reading.state
        = some .missing := by
  decide

end Olp.Cost
