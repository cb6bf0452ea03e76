import Olp.Checked
import Olp.Cost.Reserve

/-!
# What a passed assessment says

`assess_eq_ok` inverts the part of `reserve_cost.lua` that only reads: when it passes,
every window that has a limit was read as current, its limit is the configured one plus
the increases active at that instant, and what is spent in it is the accrued balance
plus the durable exposure, all as exact decimals.
-/

namespace Olp.Cost

open Limits Valkey List

/-! ## Arguments -/

/-- What arguments that passed say. -/
structure Parsed (keys : Nat) (argv : List Text) (r : Request) : Prop where
  limit : ∀ p, r.limit p
    = if limitArg argv p = [] then none else parseLimit (some (limitArg argv p))
  limited : ∀ p, limitArg argv p ≠ [] → ∃ l, r.limit p = some l
  override : number argv 3 = some r.override
  mode : r.mode = modeOf (arg argv 4)
  amount : r.mode = .reserve → parseAmount (some (arg argv 4)) = some r.amount
  lease : r.lease = arg argv 5
  leaseTtl : r.leaseTtl ≤ maxSafeInteger
  increases : r.increases = arg argv 8
  durable : r.durable = decide (keys = 6)
  priced : r.priced = true → 1 ≤ r.leaseTtl ∧ validLease r.lease = true

variable {r : Request}

/-- What arguments that were accepted say. -/
theorem parseReserve_eq_some {keys : Nat} {argv : List Text} (h : parseReserve keys argv = some r) :
    Parsed keys argv r := by
  unfold parseReserve at h
  split at h
  · simp at h
  · dsimp only at h
    split at h
    · rename_i override amount leaseTtl hover hamount httl
      split at h
      · simp at h
      · rename_i hbad
        cases h
        obtain ⟨hpriced, hlimits⟩ := not_or.1 hbad
        refine ⟨fun _ => rfl, fun p hp => ?_, hover, rfl, fun hmode => ?_, rfl,
          parseSafeUnsignedInteger_le httl, rfl, rfl, fun hp => ?_⟩
        · by_contra hne
          exact hlimits ⟨p, mem_periods p, hp,
            Option.eq_none_iff_forall_ne_some.2 fun l hl => hne ⟨l, hl⟩⟩
        · rw [← hamount, if_pos hmode]
        · have := not_and.1 hpriced hp
          simp only [not_or, Nat.not_lt, Bool.not_eq_false] at this
          exact this
    · simp at h

/-! ## Limits and increases -/

theorem units_parseLimit {raw : Option Text} {a : Amount} (h : parseLimit raw = some a) :
    parseAmount raw = some a ∧ 0 < a.units ∧ a.units < unit * unit := by
  obtain ⟨hparse, hok⟩ := Option.filter_eq_some_iff.1 h
  have hlo := a.lo_lt
  simp only [decide_eq_true_eq, not_or, not_and] at hok
  refine ⟨hparse, ?_, ?_⟩
  · by_contra hz
    have := Amount.units_eq_zero.1 (Nat.eq_zero_of_not_pos hz)
    exact hok.2 this.1 this.2
  · simp only [Amount.units, unit] at *
    omega

theorem Parsed.limit_lt {keys : Nat} {argv : List Text} (h : Parsed keys argv r) (p : Period)
    (b : Amount) (hb : r.limit p = some b) : b.units < unit * unit := by
  rw [h.limit] at hb
  split at hb
  · simp at hb
  · exact (units_parseLimit hb).2.2

/-- What a grant adds to a window at an instant, in units of `10 ^ -12`. -/
def Grant.adds (nowMs : Nat) (p : Period) (id : Nat) (g : Grant) : Nat :=
  match parseLimit g.amount, g.windowId, g.startsAt, g.expiresAt with
  | some amount, some windowId, some startsAt, some expiresAt =>
    if grantPeriod g.window = some p ∧ windowId = id ∧ startsAt ≤ nowMs ∧ nowMs < expiresAt then
      amount.units
    else 0
  | _, _, _, _ => 0

/-- The increases of a window that are active at an instant. -/
def activeIncrease (cjson : Text → Option (List Grant)) (increases : Text) (nowMs : Nat)
    (p : Period) (id : Nat) : Nat :=
  if increases = [] then 0
  else (((cjson increases).getD []).map (Grant.adds nowMs p id)).sum

theorem Grant.adds_lt (nowMs : Nat) (p : Period) (id : Nat) (g : Grant) :
    g.adds nowMs p id < unit * unit := by
  unfold Grant.adds
  split
  · rename_i amount _ _ _ hamount _ _ _
    split
    · exact (units_parseLimit hamount).2.2
    · decide
  · decide

variable {limit' : Period → Option Amount} {nowMs : Nat}

variable {window : Period → Window} {limit : Period → Option Amount}

/-- A grant is added to the limit of its window while it is active, and leaves the others. -/
theorem addGrant_cases {g : Grant} (h : addGrant nowMs window limit g = some limit') (p : Period) :
    (∃ x : Amount, g.adds nowMs p (window p).id = x.units ∧
      limit' p = (limit p).map (addAmount · x)) ∨
    g.adds nowMs p (window p).id = 0 ∧ limit' p = limit p := by
  unfold addGrant at h
  split at h
  · rename_i amount id startsAt expiresAt q hamount hid hstart hexpire hq
    simp only [Grant.adds, hamount, hid, hstart, hexpire, hq]
    split at h
    · cases h
    · split at h <;> cases h
      · by_cases hp : p = q
        · subst hp
          exact .inl ⟨amount, by simp_all, by simp⟩
        · exact .inr ⟨by simp [Ne.symm hp], by simp [hp]⟩
      · rename_i hactive
        refine .inr ⟨if_neg ?_, rfl⟩
        rintro ⟨⟨⟩, h₁, h₂, h₃⟩
        exact hactive ⟨h₂, h₃, h₁⟩
  · cases h

theorem addGrant_eq_some {g : Grant} (h : addGrant nowMs window limit g = some limit')
    (p : Period) :
    (limit p = none ∧ limit' p = none) ∨ ∃ b b', limit p = some b ∧ limit' p = some b' ∧
      b'.units = min (b.units + g.adds nowMs p (window p).id) Amount.capUnits := by
  rcases addGrant_cases h p with ⟨x, hx, hl⟩ | ⟨hx, hl⟩ <;> rw [hx, hl] <;> cases limit p
  · exact .inl ⟨rfl, rfl⟩
  · exact .inr ⟨_, _, rfl, rfl, Amount.units_add _ _⟩
  · exact .inl ⟨rfl, rfl⟩
  · exact .inr ⟨_, _, rfl, rfl, by simp [Amount.units_le]⟩

theorem foldlM_addGrant {gs : List Grant}
    (h : gs.foldlM (addGrant nowMs window) limit = some limit') (p : Period) :
    (limit p = none ∧ limit' p = none) ∨ ∃ b b', limit p = some b ∧ limit' p = some b' ∧
      (b.units + gs.length * (unit * unit) < Amount.capUnits →
        b'.units ≤ b.units + gs.length * (unit * unit) ∧
        b'.units = b.units + (gs.map (Grant.adds nowMs p (window p).id)).sum) := by
  induction gs generalizing limit with
  | nil =>
    obtain rfl : limit = limit' := by simpa using h
    cases hl : limit p with
    | none => exact .inl ⟨rfl, rfl⟩
    | some b => exact .inr ⟨b, b, rfl, rfl, by simp⟩
  | cons g gs ih =>
    obtain ⟨mid, hg, hrest⟩ := Option.bind_eq_some_iff.1 h
    have hlt := g.adds_lt nowMs p (window p).id
    rcases addGrant_eq_some hg p with ⟨hn, hn'⟩ | ⟨b, b₁, hb, hb₁, hunits⟩
    · rcases ih hrest with ⟨-, h'⟩ | ⟨c, -, hc, -⟩
      · exact .inl ⟨hn, h'⟩
      · simp [hn'] at hc
    · rcases ih hrest with ⟨h', -⟩ | ⟨c, b₂, hc, hb₂, hsum⟩
      · simp [hb₁] at h'
      · obtain rfl : b₁ = c := by simpa [hb₁] using hc
        refine .inr ⟨b, b₂, hb, hb₂, fun hbound => ?_⟩
        rw [length_cons, Nat.succ_mul] at hbound
        rw [length_cons, Nat.succ_mul, map_cons, sum_cons]
        omega

variable {cjson : Text → Option (List Grant)} {p : Period}

/-- A configured limit with its active increases: exact, and below the cap. -/
theorem addGrants_eq_some {increases : Text}
    (h : addGrants cjson nowMs window increases limit = some limit')
    (hlimit : ∀ b, limit p = some b → b.units < unit * unit) :
    (limit p = none ∧ limit' p = none) ∨ ∃ b b', limit p = some b ∧ limit' p = some b' ∧
      b'.units < Amount.capUnits ∧
      b'.units = b.units + activeIncrease cjson increases nowMs p (window p).id := by
  unfold addGrants at h
  split at h
  · rename_i hnil
    obtain rfl := Option.some.inj h
    cases hl : limit p with
    | none => exact .inl ⟨rfl, rfl⟩
    | some b =>
      have := hlimit b hl
      refine .inr ⟨b, b, rfl, rfl, ?_, by simp [activeIncrease, hnil]⟩
      simp only [Amount.capUnits, unit, huge] at *
      omega
  · rename_i hne
    split at h
    · simp at h
    · rename_i grants hg
      split at h
      · simp at h
      · rename_i hlen
        rcases foldlM_addGrant h p with hnone | ⟨b, b', hb, hb', hsum⟩
        · exact .inl hnone
        · have hb₁ := hlimit b hb
          have hbound : b.units + grants.length * (unit * unit) < Amount.capUnits := by
            simp only [Amount.capUnits, unit, huge] at *
            omega
          obtain ⟨hle, heq⟩ := hsum hbound
          exact .inr ⟨b, b', hb, hb', by omega, by simp [heq, activeIncrease, hne, hg]⟩

/-! ## Balances as exact decimals -/

/-- A field of a hash that should spell a decimal; nothing when it does not. -/
def decimalField (σ : Server CostKey) (k : CostKey) (field : Text) : ℚ :=
  (((σ.hash? k).toOption.bind (·.lookup field)).bind decimal?).getD 0

/-- The accrued balance of a window. -/
def accrued (σ : Server CostKey) (p : Period) : ℚ :=
  decimalField σ (balanceKey p) accruedField

/-- The window a balance is stored under. -/
def storedWindow (σ : Server CostKey) (p : Period) : Option Nat :=
  parseSafeUnsignedInteger ((σ.hash? (balanceKey p)).toOption.bind (·.lookup windowField))

def durable (σ : Server CostKey) : ℚ := decimalField σ .durable amountField

variable {σ : Server CostKey}

theorem decimalField_eq {k : CostKey} {field : Text} {h : Hash} {a : Amount}
    (hh : σ.hash? k = .ok h) (ha : parseAmount (h.lookup field) = some a)
    (hlt : a.units < Amount.capUnits) : decimalField σ k field * 10 ^ scale = a.units := by
  cases hraw : h.lookup field with
  | none => simp [hraw] at ha
  | some raw =>
    rw [hraw] at ha
    obtain ⟨q, hq, hunits⟩ := units_parseAmount ha
    have hcap : (a.units : ℚ) < Amount.capUnits := by exact_mod_cast hlt
    rw [hunits] at hcap
    rw [hunits, min_eq_left (by
      by_contra hne
      rw [min_eq_right (le_of_not_ge hne)] at hcap
      exact lt_irrefl _ hcap)]
    simp [decimalField, hh, Except.toOption, hraw, hq]

/-- A balance that was read as current. -/
theorem readState_current {w : Window} {rd : Reading} (h : readState σ p w nowMs = some rd)
    (hc : rd.state = .current) :
    ∃ fields, σ.hash? (balanceKey p) = .ok fields ∧
      parseAmount (fields.lookup accruedField) = some rd.spent ∧
      parseSafeUnsignedInteger (fields.lookup windowField) = some rd.window.id ∧
      (w.ttl ≠ 0 → rd.window.ttl ≠ 0) := by
  have hwindow : ∀ {fields : Hash} {v : Window} {ttl : Nat},
      readWindow fields p v ttl = some rd →
        parseAmount (fields.lookup accruedField) = some rd.spent ∧
        parseSafeUnsignedInteger (fields.lookup windowField) = some rd.window.id ∧
        rd.window = v := by
    intro fields v ttl hw
    unfold readWindow at hw
    split at hw
    · rename_i stored accrued hstored haccrued
      split at hw
      · simp at hw
      split at hw
      · simp at hw
      split at hw
      · cases hw
        simp at hc
      · rename_i heq
        cases hw
        exact ⟨haccrued, not_ne_iff.1 heq ▸ hstored, rfl⟩
    · simp at hw
  unfold readState at h
  split at h
  · simp at h
  · rename_i fields hfields
    refine ⟨fields, hfields, ?_⟩
    dsimp only at h
    split at h
    · cases h
      simp at hc
    split at h
    · simp at h
    split at h
    · obtain ⟨hspent, hid, hw⟩ := hwindow h
      exact ⟨hspent, hid, fun ht => hw ▸ ht⟩
    · split at h
      · split at h
        · simp at h
        split at h
        · cases h
          simp at hc
        · rename_i first last _ _ _ hnow
          obtain ⟨id, -, hread⟩ := Option.bind_eq_some_iff.1 h
          obtain ⟨hspent, hid, hw⟩ := hwindow hread
          refine ⟨hspent, hid, fun _ => ?_⟩
          rw [hw]
          simp only [not_or, Nat.not_lt, Nat.not_le] at hnow
          exact Nat.sub_ne_zero_of_lt hnow.2
      · simp at h

variable {seen : Period → Reading}

/-- Every period with a limit is read once, by the window the calendar gives it. -/
theorem foldlM_readPeriod {ps : List Period} (hnodup : ps.Nodup) {seen' : Period → Reading}
    (h : ps.foldlM (readPeriod σ r nowMs) seen = .ok seen') :
    (∀ p ∉ ps, seen' p = seen p) ∧
      ∀ p ∈ ps, (r.limit p).isSome → readState σ p (seen p).window nowMs = some (seen' p) := by
  induction ps generalizing seen with
  | nil =>
    obtain rfl : seen = seen' := by simpa [pure, Except.pure] using h
    exact ⟨fun _ _ => rfl, by simp⟩
  | cons q ps ih =>
    obtain ⟨hq, hnodup⟩ := nodup_cons.1 hnodup
    obtain ⟨mid, hone, hrest⟩ := bind_eq_ok.1 h
    obtain ⟨hout, hin⟩ := ih hnodup hrest
    -- one step writes the reading of `q` at most
    have hstep : (∀ p, p ≠ q → mid p = seen p) ∧
        ((r.limit q).isSome → readState σ q (seen q).window nowMs = some (mid q)) := by
      unfold readPeriod at hone
      split at hone
      · rename_i hnone
        obtain rfl : seen = mid := by simpa using hone
        exact ⟨fun _ _ => rfl, by simp [hnone]⟩
      · split at hone
        · simp at hone
        · rename_i reading hread
          obtain rfl : Function.update seen q reading = mid := by simpa using hone
          exact ⟨fun p hp => by simp [hp], fun _ => by simpa using hread⟩
    refine ⟨fun p hp => ?_, fun p hp hsome => ?_⟩
    · obtain ⟨h₁, h₂⟩ := not_or.1 (fun e => hp (mem_cons.2 e))
      rw [hout p h₂, hstep.1 p h₁]
    · rcases mem_cons.1 hp with rfl | hmem
      · rw [hout p hq]
        exact hstep.2 hsome
      · have hne : p ≠ q := fun e => hq (e ▸ hmem)
        rw [← hstep.1 p hne]
        exact hin p hmem hsome

/-! ## The assessment as a whole -/

def Assessment.Timed (a : Assessment) : Prop := ∀ p, (a.limit p).isSome → (a.window p).ttl ≠ 0

/-- What a passed assessment says. -/
structure Assessed (cjson : Text → Option (List Grant)) (r : Request) (σ : Server CostKey)
    (a : Assessment) : Prop where
  time : currentTime r.override σ.micros = some a.nowMs
  timed : a.Timed
  configured : ∀ p base, r.limit p = some base → ∃ l, a.limit p = some l ∧
    l.units < Amount.capUnits ∧
    l.units = base.units + activeIncrease cjson r.increases a.nowMs p (a.window p).id
  stored : ∀ p l, a.limit p = some l → storedWindow σ p = some (a.window p).id
  spent : ∀ p l, a.limit p = some l → (a.spent p).units ≤ l.units ∧
    (accrued σ p + if r.durable then durable σ else 0) * 10 ^ scale = (a.spent p).units

theorem firstExceeded_eq_none {mode : Mode} {total : Period → Amount}
    (h : firstExceeded mode limit total = none) {l : Amount} (hl : limit p = some l) :
    (total p).units ≤ l.units := by
  have := find?_eq_none.1 h p (mem_periods p)
  simp only [hl, Option.any_some, exceeds, decide_eq_true_eq, not_lt] at this
  refine Amount.compareAmount_le_zero.1 (this.trans ?_)
  split <;> decide

theorem durableExposure_eq_ok {d : Amount} (h : durableExposure σ = .ok d) :
    ∃ fields, σ.hash? .durable = .ok fields ∧ parseAmount (fields.lookup amountField) = some d := by
  revert h
  fun_cases durableExposure <;> simp_all

variable {a : Assessment}

theorem judgeAccrued_eq_ok {b : Assessment} (h : judgeAccrued r seen a = .ok b) :
    b = a ∧ firstExceeded r.mode a.limit a.spent = none ∧
      ∀ p l, a.limit p = some l → (seen p).state = .current := by
  unfold judgeAccrued at h
  split at h
  · simp at h
  · rename_i hexceeded
    split at h
    · simp at h
    · rename_i hcurrent
      refine ⟨(Except.ok.inj h).symm, hexceeded, fun p l hl => ?_⟩
      have := find?_eq_none.1 hcurrent p (mem_periods p)
      simpa [hl] using this

theorem spent_exact {d s : Amount} {fields : Hash} (hfields : σ.hash? (balanceKey p) = .ok fields)
    (hs : parseAmount (fields.lookup accruedField) = some s) (hd : exposure σ r window = .ok d)
    (hlt : (if r.durable then addAmount s d else s).units < Amount.capUnits) :
    (accrued σ p + if r.durable then durable σ else 0) * 10 ^ scale
      = (if r.durable then addAmount s d else s).units := by
  unfold exposure at hd
  split at hd
  · rename_i hdur
    simp only [hdur, if_true] at hlt ⊢
    cases hok : durableExposure σ with
    | error e => simp [hok, Except.mapError] at hd
    | ok d' =>
      obtain rfl : d' = d := by simpa [hok, Except.mapError] using hd
      obtain ⟨dfields, hdfields, hamount⟩ := durableExposure_eq_ok hok
      rw [Amount.units_add] at hlt
      have hsum : s.units + d'.units < Amount.capUnits := by omega
      rw [Amount.units_add_of_lt hsum, add_mul, accrued,
        decimalField_eq hfields hs (by omega), durable,
        decimalField_eq hdfields hamount (by omega)]
      push_cast
      rfl
  · rename_i hdur
    simp only [hdur, Bool.false_eq_true, if_false, add_zero] at hlt ⊢
    exact decimalField_eq hfields hs hlt

/-- `assess` inverted. -/
theorem assess_eq_ok (hlimit : ∀ p b, r.limit p = some b → b.units < unit * unit)
    (h : assess cjson r σ = .ok a) : Assessed cjson r σ a := by
  obtain ⟨nowMs, htime, h⟩ := bind_eq_ok.1 h
  obtain ⟨calendar, hcal, h⟩ := bind_eq_ok.1 h
  obtain ⟨seen, hseen, h⟩ := bind_eq_ok.1 h
  obtain ⟨limit, hgrants, h⟩ := bind_eq_ok.1 h
  obtain ⟨d, hexposure, h⟩ := bind_eq_ok.1 h
  rw [elim_eq_ok] at htime hcal hgrants
  obtain ⟨rfl, hexceeded, hstate⟩ := judgeAccrued_eq_ok h
  have hgrants := fun p => addGrants_eq_some hgrants (hlimit p)
  have hread := (foldlM_readPeriod (by decide) hseen).2
  have hbalance : ∀ p l, limit p = some l → ∃ fields, σ.hash? (balanceKey p) = .ok fields ∧
      parseAmount (fields.lookup accruedField) = some (seen p).spent ∧
      parseSafeUnsignedInteger (fields.lookup windowField) = some (seen p).window.id ∧
      ((calendar p).ttl ≠ 0 → (seen p).window.ttl ≠ 0) := fun p l hl => by
    have hsome : (r.limit p).isSome := by
      rcases hgrants p with ⟨-, hn⟩ | ⟨b, -, hb, -⟩
      · simp [hn] at hl
      · simp [hb]
    exact readState_current (hread p (mem_periods p) hsome) (hstate p l hl)
  refine ⟨htime, fun p hp => ?_, fun p base hb => ?_, fun p l hl => ?_, fun p l hl => ?_⟩
  · obtain ⟨l, hl⟩ := Option.isSome_iff_exists.1 hp
    obtain ⟨-, -, -, -, httl⟩ := hbalance p l hl
    exact httl (windows_ttl_ne_zero hcal p)
  · rcases hgrants p with ⟨hn, -⟩ | ⟨b, l, hb', hl, hlt, heq⟩
    · simp [hn] at hb
    · obtain rfl : b = base := by simpa [hb'] using hb
      exact ⟨l, hl, hlt, heq⟩
  · obtain ⟨fields, hfields, -, hid, -⟩ := hbalance p l hl
    simpa [storedWindow, hfields, Except.toOption] using hid
  · have hle := firstExceeded_eq_none hexceeded hl
    have hlt : l.units < Amount.capUnits := by
      rcases hgrants p with ⟨-, hn⟩ | ⟨b, l', -, hl', hlt, -⟩
      · simp [hn] at hl
      · exact Option.some.inj (hl.symm.trans hl') ▸ hlt
    obtain ⟨fields, hfields, hspent, -⟩ := hbalance p l hl
    exact ⟨hle, spent_exact hfields hspent hexposure (hle.trans_lt hlt)⟩

variable {reply : Reply}

theorem foldlM_readPeriod_error {ps : List Period}
    (h : ps.foldlM (readPeriod σ r nowMs) seen = .error reply) : reply.verdict = .failed := by
  induction ps generalizing seen with
  | nil => simp [pure, Except.pure] at h
  | cons p ps ih =>
    rcases bind_eq_error.1 h with h | ⟨mid, -, h⟩
    · unfold readPeriod at h
      split at h
      · simp at h
      · split at h
        · cases h
          rfl
        · simp at h
    · exact ih h

theorem judgeAccrued_eq_error (h : judgeAccrued r seen a = .error reply) : reply.verdict ≠ .ok := by
  unfold judgeAccrued at h
  split at h
  · cases h
    simp [reserveReply]
  · split at h
    · cases h
      simp [reserveReply]
    · simp at h

theorem assess_eq_error (h : assess cjson r σ = .error reply) : reply.verdict ≠ .ok := by
  simp only [assess, bind_eq_error, elim_eq_error] at h
  rcases h with ⟨-, rfl⟩ | ⟨nowMs, -, ⟨-, rfl⟩ | ⟨calendar, -, h | ⟨seen, -, ⟨-, rfl⟩ |
    ⟨limit, -, h | ⟨d, -, h⟩⟩⟩⟩⟩
  · simp [reserveFailure]
  · simp [reserveFailure]
  · simp [foldlM_readPeriod_error h]
  · simp [reserveFailure]
  · unfold exposure at h
    split at h
    · cases hd : durableExposure σ with
      | error detail =>
        obtain rfl : _ = reply := by simpa [hd, Except.mapError] using h
        simp [reserveReply]
      | ok d => simp [hd, Except.mapError] at h
    · simp at h
  · exact judgeAccrued_eq_error h

end Olp.Cost
