import Olp.Cost.Holds
import Olp.Cost.Reconcile

/-!
# What `reconcile_cost.lua` installs

What `reconcile_cost.lua` leaves at the key of a balance, as a function of what was
there (`balanceAfter`), and at the key of the durable exposure.  No part of the script
can fail once its plan stands, and each key depends on nothing but itself, the clock and
the plan (`reconcileCost_apply`).
-/

namespace Olp.Cost

open Limits Valkey

/-- The fields of a balance once a snapshot's spend is installed over them. -/
def raised (p : Period) (window : Nat) (accrued : Text) (unpriced : Nat) (h : Hash)
    (current : Option (Text × Nat)) : Hash :=
  match current with
  | none =>
    Hash.setAll ∅ <| [(windowField, Text.ofNat window), (accruedField, accrued)] ++
      if p = .month then [(unpricedField, Text.ofNat unpriced)] else []
  | some (current, currentUnpriced) =>
    let h := if (compareDecimal (some current) (some accrued)).any (· < 0) then
      h.setAll [(accruedField, accrued)] else h
    if p = .month ∧ currentUnpriced < unpriced then
      h.setAll [(unpricedField, Text.ofNat unpriced)] else h

/-- The fields of a balance once an interval is recorded with it. -/
def bounded (bounds : Option (Nat × Nat)) (h : Hash) : Hash :=
  match bounds with
  | none => h
  | some (first, last) =>
    h.setAll [(startsField, Text.ofNat first), (endsField, Text.ofNat last)]

variable {σ : Server CostKey} {p : Period} {h : Hash}

theorem currentBalance_eq_some {window : Nat} {current : Text × Nat}
    (hc : currentBalance σ p window = some current) :
    ∃ fields raw, σ.hash? (balanceKey p) = .ok fields ∧
      parseSafeUnsignedInteger (fields.lookup windowField) = some window ∧
      fields.lookup accruedField = some raw ∧ normalizeDecimal (some raw) = some current.1 ∧
      (p = .month → parseSafeUnsignedInteger (fields.lookup unpricedField) = some current.2) ∧
      (p ≠ .month → current.2 = 0) := by
  unfold currentBalance at hc
  split at hc
  · simp at hc
  · rename_i fields hfields
    dsimp only at hc
    split at hc
    · rename_i stored accrued unpriced hw ha hu
      split at hc
      · rename_i heq
        cases hc
        cases hraw : fields.lookup accruedField with
        | none => simp [hraw, normalizeDecimal] at ha
        | some raw =>
          refine ⟨fields, raw, hfields, heq ▸ hw, hraw, hraw ▸ ha, fun hp => ?_, fun hp => ?_⟩
          · simpa [hp] using hu
          · simpa [hp] using hu.symm
      · simp at hc
    · simp at hc

variable (accrued : Text) (unpriced : Nat)

theorem raiseBalance_apply (window : Nat) (accrued : Text) (unpriced : Nat)
    (hh : σ.hash? (balanceKey p) = .ok h ∨ currentBalance σ p window = none) :
    ∃ τ, raiseBalance p window accrued unpriced σ = (.ok (), τ) ∧
      τ.hash? (balanceKey p)
        = .ok (raised p window accrued unpriced h (currentBalance σ p window)) ∧
      Server.Only (balanceKey p) σ τ := by
  rw [raiseBalance, Script.read_bind]
  cases hc : currentBalance σ p window with
  | none =>
    have hdel : (σ.del (balanceKey p)).hash? (balanceKey p) = .ok ∅ :=
      Server.hash?_of_none (Server.del_store_self _ _)
    obtain ⟨τ, hset, hhash, honly⟩ := hset_only hdel
      ([(windowField, Text.ofNat window), (accruedField, accrued)] ++
        if p = .month then [(unpricedField, Text.ofNat unpriced)] else [])
    have hgone : Server.Only (balanceKey p) σ (σ.del (balanceKey p)) :=
      ⟨rfl, fun _ hj => Server.del_store_ne σ hj⟩
    exact ⟨τ, hset, hhash, hgone.trans honly⟩
  | some current =>
    obtain ⟨current, currentUnpriced⟩ := current
    have hh : σ.hash? (balanceKey p) = .ok h := hh.resolve_right (by simp [hc])
    dsimp only [raised]
    obtain ⟨σ₁, h₁, hhash₁, honly₁⟩ := hsetIf_only hh
      ((compareDecimal (some current) (some accrued)).any (· < 0)) [(accruedField, accrued)]
    obtain ⟨τ, h₂, hhash₂, honly₂⟩ := hsetIf_only hhash₁ (p = .month ∧ currentUnpriced < unpriced)
      [(unpricedField, Text.ofNat unpriced)]
    exact ⟨τ, by rw [Script.bind_ok h₁, h₂], hhash₂, honly₁.trans honly₂⟩

theorem recordInterval_apply (hh : σ.hash? (balanceKey p) = .ok h) (bounds : Option (Nat × Nat)) :
    ∃ τ, recordInterval p bounds σ = (.ok (), τ) ∧
      τ.hash? (balanceKey p) = .ok (bounded bounds h) ∧ Server.Only (balanceKey p) σ τ := by
  cases bounds with
  | none => exact ⟨σ, rfl, hh, .refl _ σ⟩
  | some b => exact hset_only hh _

/-- The fields a snapshot leaves in a balance that it is installed in. -/
def installed (σ : Server CostKey) (p : Period) (i : Interval) (accrued : Text) (unpriced : Nat)
    (h : Hash) : Hash :=
  bounded i.bounds (raised p i.window accrued unpriced h (currentBalance σ p i.window))

theorem lookup_bounded {bounds : Option (Nat × Nat)} {f : Text} (h₁ : f ≠ startsField)
    (h₂ : f ≠ endsField) : (bounded bounds h).lookup f = h.lookup f := by
  unfold bounded
  split
  · rfl
  · simp [Hash.setAll, h₁, h₂]

theorem lookup_installed_window {i : Interval}
    (hh : σ.hash? (balanceKey p) = .ok h ∨ currentBalance σ p i.window = none)
    (hi : i.window ≤ maxSafeInteger) :
    parseSafeUnsignedInteger ((installed σ p i accrued unpriced h).lookup windowField)
      = some i.window := by
  rw [installed, lookup_bounded (by decide) (by decide)]
  cases hc : currentBalance σ p i.window with
  | none =>
    have : (raised p i.window accrued unpriced h none).lookup windowField
        = some (Text.ofNat i.window) := by
      cases p <;> simp [raised, Hash.setAll, show windowField ≠ accruedField by decide,
        show windowField ≠ unpricedField by decide]
    rw [this, parseSafeUnsignedInteger_eq, safeInteger_ofNat hi]
  | some current =>
    obtain ⟨fields, raw, hfields, hwindow, -⟩ := currentBalance_eq_some hc
    obtain rfl : fields = h := by
      have := hh.resolve_right (by simp [hc])
      rw [hfields] at this
      exact Except.ok.inj this
    rw [← hwindow]
    congr 1
    simp only [raised]
    split <;> split <;> simp [Hash.setAll, show windowField ≠ accruedField by decide,
      show windowField ≠ unpricedField by decide]

/-- `installBalance` writes its own balance when its interval is the current one, and
nothing otherwise. -/
theorem installBalance_apply (i : Interval) (snapshot : Option Nat) (accrued : Text)
    (unpriced : Nat) (hh : σ.hash? (balanceKey p) = .ok h ∨ currentBalance σ p i.window = none)
    (hi : i.window ≤ maxSafeInteger) (httl : i.active = true → i.ttl ≠ 0) :
    ∃ τ, installBalance p i snapshot accrued unpriced σ
        = (.ok (decide (i.active = true ∧ snapshot = some i.window)), τ) ∧
      Server.Only (balanceKey p) σ τ ∧
      (i.active = true ∧ snapshot = some i.window ∧ τ.store (balanceKey p)
          = some ⟨.hash (installed σ p i accrued unpriced h), some (σ.now + i.ttl)⟩ ∨
        ¬ (i.active = true ∧ snapshot = some i.window) ∧ τ = σ) := by
  unfold installBalance
  by_cases hc : i.active = true ∧ snapshot = some i.window
  · obtain ⟨σ₁, h₁, hhash₁, honly₁⟩ := raiseBalance_apply i.window accrued unpriced hh
    obtain ⟨σ₂, h₂, hhash₂, honly₂⟩ := recordInterval_apply hhash₁ i.bounds
    have hmem : windowField ∈ installed σ p i accrued unpriced h := by
      have := lookup_installed_window accrued unpriced hh hi
      rw [← Finmap.lookup_isSome]
      cases hl : (installed σ p i accrued unpriced h).lookup windowField with
      | none => simp [hl, parseSafeUnsignedInteger] at this
      | some t => rfl
    obtain ⟨d, hstore⟩ := store_of_hash? hhash₂ hmem
    refine ⟨σ₂.pexpire (balanceKey p) i.ttl, ?_, ?_, .inl ⟨hc.1, hc.2, ?_⟩⟩
    · rw [if_pos hc, Script.bind_ok h₁, Script.bind_ok h₂, Script.write_bind, decide_eq_true hc]
      rfl
    · exact (honly₁.trans honly₂).trans
        ⟨by simp, fun _ hj => Server.pexpire_store_ne σ₂ i.ttl hj⟩
    · rw [Server.pexpire_store_self hstore (httl hc.1), (honly₁.trans honly₂).now]
      rfl
  · rw [if_neg hc, decide_eq_false hc]
    exact ⟨σ, rfl, .refl _ σ, .inr ⟨hc, rfl⟩⟩

/-- What a snapshot leaves at the key of a balance. -/
def balanceAfter (σ : Server CostKey) (p : Period) (i : Interval) (snapshot : Option Nat)
    (accrued : Option Text) (unpriced : Nat) : Option Entry :=
  match accrued with
  | none => σ.store (balanceKey p)
  | some accrued =>
    if i.active = true ∧ snapshot = some i.window then
      some ⟨.hash (installed σ p i accrued unpriced ((σ.hash? (balanceKey p)).toOption.getD ∅)),
        some (σ.now + i.ttl)⟩
    else σ.store (balanceKey p)

theorem balanceAfter_congr {τ : Server CostKey}
    (hs : τ.store (balanceKey p) = σ.store (balanceKey p)) (hm : τ.micros = σ.micros) (i : Interval)
    (snapshot : Option Nat) (accrued : Option Text) (unpriced : Nat) :
    balanceAfter τ p i snapshot accrued unpriced =
      balanceAfter σ p i snapshot accrued unpriced := by
  have hh := Server.hash?_congr hs
  simp only [balanceAfter, installed, currentBalance, hh, hs, Server.now, hm]

/-- Whether a snapshot is installed for a period, as the reply says. -/
def installs (s : Snapshot) (i : Period → Interval) (p : Period) : Bool :=
  (s.accrued p).isSome ∧ (i p).active = true ∧ s.window p = some (i p).window

theorem installPeriod_apply (s : Snapshot) (i : Period → Interval) (p : Period)
    (hi : (i p).window ≤ maxSafeInteger) (httl : (i p).active = true → (i p).ttl ≠ 0) :
    ∃ τ, installPeriod s i p σ = (.ok (installs s i p), τ) ∧ Server.Only (balanceKey p) σ τ ∧
      τ.store (balanceKey p) = balanceAfter σ p (i p) (s.window p) (s.accrued p) s.unpriced := by
  unfold installPeriod balanceAfter installs
  cases hs : s.accrued p with
  | none => exact ⟨σ, by simp, .refl _ σ, rfl⟩
  | some accrued =>
    have hh : σ.hash? (balanceKey p) = .ok ((σ.hash? (balanceKey p)).toOption.getD ∅) ∨
        currentBalance σ p (i p).window = none := by
      cases hc : σ.hash? (balanceKey p) with
      | ok h => exact .inl rfl
      | error e => exact .inr (by simp [currentBalance, hc])
    obtain ⟨τ, hrun, honly, hstore⟩ :=
      installBalance_apply (i p) (s.window p) accrued s.unpriced hh hi httl
    refine ⟨τ, by simpa using hrun, honly, ?_⟩
    dsimp only
    rcases hstore with ⟨ha, hw, hstore⟩ | ⟨hno, rfl⟩
    · rw [if_pos ⟨ha, hw⟩, hstore]
    · rw [if_neg hno]

/-! ## The durable exposure -/

theorem installProjection_apply (hh : σ.hash? .durable = .ok h) (d : Projection) :
    ∃ τ, installProjection d σ = (.ok (), τ) ∧ Server.Only .durable σ τ ∧
      τ.store .durable = some ⟨.hash (h.setAll [(versionField, d.versionText),
        (amountField, d.amount), (blockedField, d.blocked)]), none⟩ := by
  obtain ⟨σ₁, h₁, hhash₁, honly₁⟩ := hset_only hh [(versionField, d.versionText),
    (amountField, d.amount), (blockedField, d.blocked)]
  have hmem : blockedField ∈ h.setAll [(versionField, d.versionText), (amountField, d.amount),
      (blockedField, d.blocked)] := by
    simp [Hash.setAll]
  obtain ⟨e, hstore⟩ := store_of_hash? hhash₁ hmem
  refine ⟨σ₁.persist .durable, ?_, honly₁.trans ⟨by simp, fun _ hj => by simp [hj]⟩, ?_⟩
  · rw [installProjection, Script.bind_ok h₁]
    rfl
  · simp [Server.persist, hstore]

variable {argv : List Text}

variable {keys : Nat}

theorem projectionArg_eq_some {d : Projection} (h : projectionArg σ keys argv = some (some d)) :
    keys = 6 ∧ parseProjection argv = some d ∧ staleProjection σ d = false ∧
      ∃ fields, σ.hash? .durable = .ok fields := by
  unfold projectionArg at h
  split at h
  · rename_i hkeys
    split at h
    · simp at h
    · rename_i d' hd
      split at h
      · simp at h
      · rename_i hstale
        obtain rfl : d' = d := by simpa using h
        refine ⟨hkeys, hd, by simpa using hstale, ?_⟩
        unfold staleProjection at hstale
        split at hstale
        · simp at hstale
        · rename_i fields hfields
          exact ⟨fields, hfields⟩
  · simp at h

/-! ## The plan -/

variable {d : Option Projection} {i : Period → Interval} {s : Snapshot}

theorem planReconcile_eq_ok (h : planReconcile keys argv σ = .ok (s, i, d)) :
    parseSnapshot argv = some s ∧ projectionArg σ keys argv = some d ∧
      ∃ nowMs, currentTime s.override σ.micros = some nowMs ∧
        intervals σ keys argv nowMs s (windowAt nowMs) = some i ∧
        ∃ w, windows nowMs = some w := by
  unfold planReconcile at h
  split at h
  · simp at h
  · split at h
    · rename_i d' s' hd hs
      split at h
      · simp at h
      · rename_i nowMs htime
        dsimp only at h
        split at h
        · simp at h
        · rename_i httl
          split at h
          · simp at h
          · rename_i i' hi
            obtain ⟨rfl, rfl, rfl⟩ : s' = s ∧ i' = i ∧ d' = d := by simpa using h
            exact ⟨hs, hd, nowMs, htime, hi, _, by rw [windows, if_neg httl]⟩
    · simp at h

theorem planReconcile_eq_error {reply : Reply} (h : planReconcile keys argv σ = .error reply) :
    reply.verdict = .failed := by
  unfold planReconcile at h
  split at h
  · cases h
    rfl
  · split at h
    · split at h
      · cases h
        rfl
      · dsimp only at h
        split at h
        · cases h
          rfl
        · split at h
          · cases h
            rfl
          · simp at h
    · cases h
      rfl

theorem interval_eq_some {nowMs : Nat} {snapshot : Option Nat} {calendar : Window} {i : Interval}
    (h : interval σ argv nowMs p snapshot calendar = some i) (hcal : calendar.ttl ≠ 0)
    (hid : calendar.id ≤ maxSafeInteger) (hsnap : ∀ n, snapshot = some n → n ≤ maxSafeInteger) :
    i.window ≤ maxSafeInteger ∧ (i.active = true → i.ttl ≠ 0) := by
  revert h
  fun_cases interval <;> grind

theorem parseSnapshot_eq_some (h : parseSnapshot argv = some s) :
    number argv 6 = some s.override ∧ s.request = arg argv 7 ∧
      (s.request ≠ [] → validLease s.request = true) ∧
      ∀ p n, s.window p = some n → n ≤ maxSafeInteger := by
  unfold parseSnapshot at h
  split at h
  · simp at h
  · split at h
    · rename_i day daily month monthly unpriced override hday hdaily hmonth hmonthly hun hover
      split at h
      · simp at h
      · rename_i hvalid
        cases h
        refine ⟨hover, rfl, fun hne => by simpa [hne] using hvalid, fun p n hn => ?_⟩
        cases p with
        | day =>
          obtain rfl : day = n := by simpa using hn
          exact parseSafeUnsignedInteger_le hday
        | month =>
          obtain rfl : month = n := by simpa using hn
          exact parseSafeUnsignedInteger_le hmonth
        | week =>
          have hweek : parseSafeUnsignedInteger (some (argv.getD 7 ['0'])) = some n := hn
          exact parseSafeUnsignedInteger_le hweek
    · simp at h

/-- The intervals of a plan have exact windows, and an active one is not over. -/
theorem plan_intervals (h : planReconcile keys argv σ = .ok (s, i, d)) (p : Period) :
    (i p).window ≤ maxSafeInteger ∧ ((i p).active = true → (i p).ttl ≠ 0) := by
  obtain ⟨hs, -, nowMs, htime, hi, w, hw⟩ := planReconcile_eq_ok h
  obtain ⟨hover, -, -, hwindow⟩ := parseSnapshot_eq_some hs
  have hnow : nowMs ≤ maxSafeInteger :=
    currentTime_le (parseSafeUnsignedInteger_le hover) htime
  have hid := windowAt_id_le hnow
  have httl : ∀ p, (windowAt nowMs p).ttl ≠ 0 := fun p => by
    rw [← windows_eq_some hw]
    exact windows_ttl_ne_zero hw p
  unfold intervals at hi
  split at hi
  · rename_i day month week hday hmonth hweek
    cases hi
    cases p with
    | day => exact interval_eq_some hday (httl _) (hid _) (hwindow _)
    | month => exact interval_eq_some hmonth (httl _) (hid _) (hwindow _)
    | week =>
      split at hweek
      · exact interval_eq_some hweek (httl _) (hid _) (hwindow _)
      · cases hweek
        exact ⟨hid _, by simp⟩
  · simp at hi

/-! ## The whole script -/

/-- `release_lease` answers whatever the pending keys hold, and writes no other. -/
theorem releaseLease_apart (σ : Server CostKey) (lease : Text) :
    ∃ n τ, releaseLease lease σ = (.ok n, τ) ∧ Apart σ τ := by
  unfold releaseLease
  cases hh : σ.hash? .pending with
  | error e =>
    have hget : (hmget .pending [lease, sumField]).pcall σ = (.ok (.error e), σ) := by
      rw [Script.pcall, hmget, Script.query, hh]
      rfl
    rw [Script.bind_ok hget]
    exact ⟨0, _, rfl, apart_drop σ⟩
  | ok h =>
    have hget : (hmget .pending [lease, sumField]).pcall σ
        = (.ok (.ok [h.lookup lease, h.lookup sumField]), σ) := by
      rw [Script.pcall, hmget_apply hh]
      rfl
    rw [Script.bind_ok hget]
    cases hl : h.lookup lease with
    | none => exact ⟨0, σ, rfl, .refl σ⟩
    | some amount =>
      obtain ⟨τ, hrun, hapart⟩ : ∃ τ, removeLease lease (some amount)
          ((parseAmount (h.lookup sumField)).getD .zero) σ = (.ok (), τ) ∧ Apart σ τ := by
        unfold removeLease
        rw [Script.bind_ok (hlen_apply hh)]
        split
        · exact ⟨_, rfl, apart_drop σ⟩
        · rw [Script.bind_ok (hdel_apply hh [lease])]
          cases hz : (σ.putHash .pending (h.eraseAll [lease])).zset? .expiry with
          | error e =>
            have hrem : (zrem .expiry [lease]).pcall (σ.putHash .pending (h.eraseAll [lease]))
                = (.ok (.error e), σ.putHash .pending (h.eraseAll [lease])) := by
              rw [Script.pcall, zrem, Script.query_bind_error hz]
            rw [Script.bind_ok hrem]
            exact ⟨_, rfl, by simp, fun k hp he => by simp [hp, he]⟩
          | ok z =>
            have hrem : (zrem .expiry [lease]).pcall (σ.putHash .pending (h.eraseAll [lease]))
                = (.ok (.ok ()), (σ.putHash .pending (h.eraseAll [lease])).putZset .expiry
                  (z.rem [lease])) := by
              rw [Script.pcall, zrem_apply hz]
            rw [Script.bind_ok hrem]
            have hh' : ((σ.putHash .pending (h.eraseAll [lease])).putZset .expiry
                (z.rem [lease])).hash? .pending = .ok (h.eraseAll [lease]) :=
              (Server.hash?_congr (Server.putZset_store_ne _ _ (by decide))).trans
                (Server.hash?_putHash _ _ _)
            exact ⟨_, hset_apply hh' _, by simp, fun k hp he => by simp [hp, he]⟩
      refine ⟨1, τ, ?_, hapart⟩
      dsimp only
      rw [Script.bind_ok hrun]
      rfl

theorem releaseRequest_apart (σ : Server CostKey) (request : Text) :
    ∃ τ, releaseRequest request σ = (.ok (), τ) ∧ Apart σ τ := by
  unfold releaseRequest
  split
  · exact ⟨σ, rfl, .refl σ⟩
  · obtain ⟨n, τ, hrun, hapart⟩ := releaseLease_apart σ request
    exact ⟨τ, by rw [Script.bind_ok hrun]; rfl, hapart⟩

/-- What is at the key of the durable exposure once a projection came with a snapshot. -/
def exposureAfter (σ : Server CostKey) : Option Projection → Option Entry
  | none => σ.store .durable
  | some d => some ⟨.hash (((σ.hash? .durable).toOption.getD ∅).setAll
      [(versionField, d.versionText), (amountField, d.amount), (blockedField, d.blocked)]), none⟩

/-- A plan that stands is carried out: every balance and the exposure are installed, and
the pending keys are what releasing the request makes of them. -/
theorem reconcileCost_apply (hplan : planReconcile keys argv σ = .ok (s, i, d)) :
    ∃ reply τ, reconcileCost keys argv σ = (.ok reply, τ) ∧
      reply = ⟨.ok, .ok, [(installs s i .day).toNat, (installs s i .month).toNat]⟩ ∧
      τ.micros = σ.micros ∧
      (∀ p, τ.store (balanceKey p)
        = balanceAfter σ p (i p) (s.window p) (s.accrued p) s.unpriced) ∧
      τ.store .durable = exposureAfter σ d ∧
      ∃ σ' τ', releaseRequest s.request σ' = (.ok (), τ') ∧ σ'.micros = σ.micros ∧
        (∀ k, k = .pending ∨ k = .expiry → σ'.store k = σ.store k ∧ τ.store k = τ'.store k) := by
  have hi := plan_intervals hplan
  obtain ⟨-, hd, -⟩ := planReconcile_eq_ok hplan
  obtain ⟨σ₁, h₁, ho₁, hday⟩ := installPeriod_apply (σ := σ) s i .day (hi _).1 (hi _).2
  obtain ⟨σ₂, h₂, ho₂, hmonth⟩ := installPeriod_apply (σ := σ₁) s i .month (hi _).1 (hi _).2
  obtain ⟨σ₃, h₃, ho₃, hweek⟩ := installPeriod_apply (σ := σ₂) s i .week (hi _).1 (hi _).2
  obtain ⟨σ₄, h₄, hapart⟩ := releaseRequest_apart σ₃ s.request
  have hstore₃ : ∀ k, k ≠ .day → k ≠ .month → k ≠ .week → σ₃.store k = σ.store k :=
    fun k hd hm hw => by rw [ho₃.store k hw, ho₂.store k hm, ho₁.store k hd]
  have hdur : σ₄.store .durable = σ.store .durable :=
    (hapart.store .durable (by decide) (by decide)).trans
      (hstore₃ .durable (by decide) (by decide) (by decide))
  obtain ⟨σ₅, h₅, honly, hexposure⟩ : ∃ υ, installExposure d σ₄ = (.ok (), υ) ∧
      Server.Only .durable σ₄ υ ∧ υ.store .durable = exposureAfter σ d := by
    cases d with
    | none => exact ⟨σ₄, rfl, .refl _ σ₄, hdur⟩
    | some d =>
      obtain ⟨-, -, -, fields, hfields⟩ := projectionArg_eq_some hd
      obtain ⟨υ, hrun, honly, hstore⟩ :=
        installProjection_apply ((Server.hash?_congr hdur).trans hfields) d
      refine ⟨υ, hrun, honly, ?_⟩
      simp only [hstore, exposureAfter, hfields, Except.toOption, Option.getD_some]
  have hmicros₃ : σ₃.micros = σ.micros := by rw [ho₃.micros, ho₂.micros, ho₁.micros]
  have hlast : ∀ p, σ₅.store (balanceKey p) = σ₃.store (balanceKey p) := fun p => by
    rw [honly.store _ (by cases p <;> decide),
      hapart.store _ (by cases p <;> decide) (by cases p <;> decide)]
  refine ⟨_, σ₅, ?_, rfl, ?_, fun p => ?_, hexposure, σ₃, σ₄, h₄, hmicros₃, fun k hk => ?_⟩
  · rw [reconcileCost, Script.read_bind, hplan]
    dsimp only
    rw [installSnapshot, Script.bind_ok h₁, Script.bind_ok h₂, Script.bind_ok h₃,
      Script.bind_ok h₄, Script.bind_ok h₅]
    rfl
  · rw [honly.micros, hapart.micros, hmicros₃]
  · rw [hlast]
    cases p with
    | day => rw [ho₃.store _ (by decide), ho₂.store _ (by decide), hday]
    | month =>
      rw [ho₃.store _ (by decide), hmonth]
      exact balanceAfter_congr (ho₁.store _ (by decide)) ho₁.micros _ _ _ _
    | week =>
      rw [hweek]
      exact balanceAfter_congr
        ((ho₂.store _ (by decide)).trans (ho₁.store _ (by decide)))
        (ho₂.micros.trans ho₁.micros) _ _ _ _
  · rcases hk with rfl | rfl
    all_goals exact ⟨hstore₃ _ (by decide) (by decide) (by decide), honly.store _ (by decide)⟩

end Olp.Cost
