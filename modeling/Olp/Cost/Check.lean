import Olp.Cost.Bookkeeping

/-!
# Availability checks

`reserve_cost.lua` with `check` for an amount answers whether a budget has anything left, and
writes nothing.  `check_eq_smallest_reservation` compares it with a reservation of the smallest
amount, `0.000000000001`, at the same instant: both are granted or neither is.  Where pending
reservations stand in the way, the check names the first window that is full and the reservation
the one with the longest wait, which is the same unless less than a second is left of the first.
-/

namespace Olp.Cost

open Limits Valkey List Option

def smallest : Amount := ⟨0, 1, by decide, by decide⟩

/-- The arguments of a check, as a reservation of the smallest amount. -/
def asReservation (argv : List Text) (lease ttl : Text) : List Text :=
  ((argv.set 3 "0.000000000001".toList).set 4 lease).set 5 ttl

/-- The request of a check, as a reservation of the smallest amount. -/
def Request.asReservation (r : Request) (lease : Text) (ttl : Nat) : Request :=
  { r with mode := .reserve, amount := smallest, lease := lease, leaseTtl := ttl }

/-! ## Arguments -/

section Arguments

variable {argv : List Text} {lease ttl : Text}

theorem arg_set_of_ne {i j : Nat} (h : j + 1 ≠ i) (hi : 1 ≤ i) (t : Text) :
    arg (argv.set j t) i = arg argv i := by
  unfold arg
  rw [getD_eq_getElem?_getD, getD_eq_getElem?_getD, getElem?_set_ne (by omega)]

theorem arg_set_self {j : Nat} (h : j < argv.length) (t : Text) :
    arg (argv.set j t) (j + 1) = t := by
  unfold arg
  rw [Nat.add_sub_cancel, getD_eq_getElem?_getD, getElem?_set_self h, getD_some]

theorem arg_asReservation {i : Nat} (hi : 1 ≤ i) (h4 : i ≠ 4) (h5 : i ≠ 5) (h6 : i ≠ 6) :
    arg (asReservation argv lease ttl) i = arg argv i := by
  unfold asReservation
  rw [arg_set_of_ne (by omega) hi, arg_set_of_ne (by omega) hi, arg_set_of_ne (by omega) hi]

theorem limitArg_asReservation (p : Period) :
    limitArg (asReservation argv lease ttl) p = limitArg argv p := by
  cases p <;> exact arg_asReservation (by decide) (by decide) (by decide) (by decide)

/-- A check is read as the reservation that differs in what is reserved. -/
theorem parseReserve_asReservation {keys n : Nat} (hcheck : arg argv 4 = "check".toList)
    (hnumber : (number argv 6).isSome) (hlease : validLease lease = true)
    (httl : parseSafeUnsignedInteger (some ttl) = some n) (hn : 1 ≤ n) :
    parseReserve keys (asReservation argv lease ttl) =
      (parseReserve keys argv).map fun r => r.asReservation lease n := by
  have hlength : (asReservation argv lease ttl).length = argv.length := by simp [asReservation]
  unfold parseReserve
  rw [hlength]
  split
  · rfl
  · next hkeys =>
      have h4 : arg (asReservation argv lease ttl) 4 = "0.000000000001".toList := by
        unfold asReservation
        rw [arg_set_of_ne (by decide) (by decide), arg_set_of_ne (by decide) (by decide),
          arg_set_self (by omega)]
      have h5 : arg (asReservation argv lease ttl) 5 = lease := by
        unfold asReservation
        rw [arg_set_of_ne (by decide) (by decide), arg_set_self (by simp; omega)]
      have h6 : number (asReservation argv lease ttl) 6 = some n := by
        unfold asReservation
        rw [number, arg_set_self (by simp; omega), httl]
      have h3 : number (asReservation argv lease ttl) 3 = number argv 3 := by
        rw [number, number, arg_asReservation (by decide) (by decide) (by decide) (by decide)]
      have h8 : arg (asReservation argv lease ttl) 8 = arg argv 8 :=
        arg_asReservation (by decide) (by decide) (by decide) (by decide)
      have hamount : parseAmount (some "0.000000000001".toList) = some smallest := by decide
      have hmode : modeOf "0.000000000001".toList = .reserve := by decide
      have hmode' : modeOf "check".toList = .check := by decide
      obtain ⟨k, hk⟩ := isSome_iff_exists.1 hnumber
      simp only [h4, h5, h6, h3, h8, hcheck, hk, hmode, hmode', if_true, hamount,
        limitArg_asReservation, reduceCtorEq, if_false]
      cases number argv 3 with
      | none => rfl
      | some override =>
        have hvalid : ¬ (n < 1 ∨ validLease lease = false) := by
          rw [hlease]
          simp only [reduceCtorEq, or_false]
          omega
        dsimp only
        by_cases hlimits : ∃ p ∈ periods, limitArg argv p ≠ [] ∧
            (if limitArg argv p = [] then none else parseLimit (some (limitArg argv p))) = none
        · rw [if_pos (.inr hlimits), if_pos (.inr hlimits)]
          rfl
        · rw [if_neg (by rintro (⟨-, h⟩ | h) <;> contradiction),
            if_neg (by rintro (⟨h, -⟩ | h) <;> contradiction)]
          rfl

end Arguments

/-! ## Assessments -/

section Assessments

variable {cjson : Text → Option (List Grant)} {r : Request} {σ : Server CostKey} {a : Assessment}

/-- The reading part does not tell a check from a reservation. -/
theorem assess_asReservation (hmode : r.mode = .check) (lease : Text) (ttl : Nat) :
    assess cjson (r.asReservation lease ttl) σ = assess cjson r σ := by
  have hjudge :
      ∀ seen a, judgeAccrued (r.asReservation lease ttl) seen a = judgeAccrued r seen a := by
    intro seen a
    unfold judgeAccrued
    rw [hmode]
    rfl
  unfold assess
  simp only [hjudge]
  rfl

/-- A check that passes the reading part leaves room in every window. -/
theorem assess_lt (hmode : r.mode = .check) (h : assess cjson r σ = .ok a) {p : Period}
    {l : Amount} (hl : a.limit p = some l) : (a.spent p).units < l.units := by
  obtain ⟨nowMs, -, h⟩ := bind_eq_ok.1 h
  obtain ⟨calendar, -, h⟩ := bind_eq_ok.1 h
  obtain ⟨seen, -, h⟩ := bind_eq_ok.1 h
  obtain ⟨limit, -, h⟩ := bind_eq_ok.1 h
  obtain ⟨d, -, h⟩ := bind_eq_ok.1 h
  obtain ⟨ha, hexceeded, -⟩ := judgeAccrued_eq_ok h
  rw [← ha] at hexceeded
  have := find?_eq_none.1 hexceeded p (mem_periods p)
  simp only [hl, any_some, exceeds, hmode, decide_eq_true_eq, reduceCtorEq, if_false,
    Amount.neg_one_lt_compareAmount] at this
  exact Nat.not_le.1 this

theorem assess_limit_lt (hlimit : ∀ p b, r.limit p = some b → b.units < unit * unit)
    (h : assess cjson r σ = .ok a) {p : Period} {l : Amount} (hl : a.limit p = some l) :
    l.units < Amount.capUnits := by
  obtain ⟨nowMs, -, h⟩ := bind_eq_ok.1 h
  obtain ⟨calendar, -, h⟩ := bind_eq_ok.1 h
  obtain ⟨seen, -, h⟩ := bind_eq_ok.1 h
  obtain ⟨limit, hgrants, h⟩ := bind_eq_ok.1 h
  obtain ⟨d, -, h⟩ := bind_eq_ok.1 h
  obtain ⟨rfl, -, -⟩ := judgeAccrued_eq_ok h
  rw [elim_eq_ok] at hgrants
  rcases addGrants_eq_some hgrants (hlimit p) with ⟨-, hnone⟩ | ⟨b, l', -, hl', hlt, -⟩
  · dsimp only at hl
    rw [hnone] at hl
    cases hl
  · cases hl'.symm.trans hl
    exact hlt

end Assessments

/-! ## Pending totals -/

section Pending

variable {σ : Server CostKey}

def fieldUnits (h : Hash) (m : Text) : Nat := (parseAmount (h.lookup m)).elim 0 Amount.units

theorem units_retire_eq (h : Hash) (t : Amount) (gone : List Text) :
    (retire t (gone.map h.lookup)).units = t.units - (gone.map (fieldUnits h)).sum := by
  induction gone generalizing t with
  | nil => rfl
  | cons m gone ih =>
    have hstep : retire t ((m :: gone).map h.lookup)
        = retire ((parseAmount (h.lookup m)).elim t (subAmount t)) (gone.map h.lookup) := rfl
    rw [hstep, ih, map_cons, sum_cons, ← Nat.sub_sub]
    congr 1
    unfold fieldUnits
    cases parseAmount (h.lookup m) with
    | none => rfl
    | some a => exact Amount.units_sub t a

/-- A total read without writing is the total that a sweep leaves, and what the sweep leaves has no
lease that was not there. -/
theorem InStep.pendingTotal_modes (hσ : InStep σ) (now : Nat) :
    ∃ a τ h z, pendingTotal now true σ = (.ok a, σ) ∧ pendingTotal now false σ = (.ok a, τ) ∧
      τ.hash? .pending = .ok h ∧ τ.zset? .expiry = .ok z ∧
      ∀ m, (∀ z₀, σ.zset? .expiry = .ok z₀ → z₀.score? m = none) → z.score? m = none := by
  rcases hσ with ⟨hp, he⟩ | ⟨h, z, d, d', hp, he, hnot, hkeys, -, sum, hsum, hunits⟩
  · refine ⟨.zero, σ, ∅, .empty, ?_, ?_, Server.hash?_of_none hp, Server.zset?_of_none he,
      fun m _ => by simp⟩
    all_goals
      rw [pendingTotal, Script.read_bind, inspect_of_empty hp he]
      rfl
  · have hh : σ.hash? .pending = .ok h := Server.hash?_of_hash hp
    have hz : σ.zset? .expiry = .ok z := Server.zset?_of_zset he
    have hcard : h.keys.card = z.card + 1 := by
      rw [hkeys, Finset.card_insert_of_notMem hnot, ZSet.card_eq]
    have hdrop :
      ∀ υ : Server CostKey, ∃ h' z', ((υ.del .pending).del .expiry).hash? .pending = .ok h' ∧
        ((υ.del .pending).del .expiry).zset? .expiry = .ok z' ∧ ∀ m, z'.score? m = none :=
      fun υ => ⟨∅, .empty, Server.hash?_of_none (by simp), Server.zset?_of_none (by simp),
        fun m => by simp⟩
    by_cases hempty : z.card < 1
    · -- no lease, so the keys are taken for damaged, and dropped by a sweep
      have hinspect : inspect σ = .damaged := by simp [inspect, hh, hz, hsum, hempty]
      obtain ⟨h', z', hh', hz', hscore⟩ := hdrop σ
      refine ⟨.zero, (σ.del .pending).del .expiry, h', z', ?_, ?_, hh', hz', fun m _ => hscore m⟩
      all_goals
        rw [pendingTotal, Script.read_bind, hinspect]
        rfl
    · have hinspect : inspect σ = .held sum := by simp [inspect, hh, hz, hsum, hcard, hempty]
      set gone := z.rangeByScore now sweepLimit with hgone
      have hmember : ∀ m ∈ gone, m ∈ z.members := by
        intro m hm
        obtain ⟨s, hs, -⟩ := ZSet.mem_rangeByScore hm
        exact ZSet.mem_members_iff.2 ⟨s, hs⟩
      by_cases hnil : gone = []
      · refine ⟨sum, σ, h, z, ?_, ?_, hh, hz, fun m hm => hm z hz⟩
        all_goals
          rw [pendingTotal_of_held hinspect hz, if_pos hnil]
          rfl
      · set σ₁ := σ.putHash .pending (h.eraseAll gone) with hσ₁
        set σ₂ := σ₁.putZset .expiry (z.rem gone) with hσ₂
        have hz₁ : σ₁.zset? .expiry = .ok z := by
          rw [← hz]
          exact Server.zset?_congr (Server.putHash_store_ne _ _ (by decide))
        have hh₂ : σ₂.hash? .pending = .ok (h.eraseAll gone) := by
          rw [← Server.hash?_putHash σ .pending (h.eraseAll gone)]
          exact Server.hash?_congr (Server.putZset_store_ne _ _ (by decide))
        have hread : pendingTotal now true σ = (.ok (retire sum (gone.map h.lookup)), σ) := by
          rw [pendingTotal_of_held hinspect hz, if_neg hnil, Script.bind_ok (hmget_apply hh gone),
            if_pos rfl]
          rfl
        have hsweep : pendingTotal now false σ
            = closeSweep (retire sum (gone.map h.lookup)) σ₂ := by
          rw [pendingTotal_of_held hinspect hz, if_neg hnil, Script.bind_ok (hmget_apply hh gone),
            if_neg Bool.false_ne_true, Script.bind_ok (hdel_apply hh gone),
            Script.bind_ok (zrem_apply hz₁ gone)]
        rw [hread, hsweep, closeSweep, Script.bind_ok (hlen_apply hh₂)]
        by_cases hall : (h.eraseAll gone).keys.card ≤ 1
        · -- the sweep takes every lease, so nothing is left of the total
          have hevery : gone.toFinset = z.members := by
            refine Finset.Subset.antisymm (fun m hm => hmember m (mem_toFinset.1 hm)) ?_
            intro m hm
            by_contra hleft
            have hstay : ∀ f ∈ h.keys, f ∉ gone → f ∈ (h.eraseAll gone).keys := by
              intro f hf hfg
              rw [Finmap.mem_keys, ← Finmap.lookup_isSome, Table.lookup_eraseAll, if_neg hfg,
                Finmap.lookup_isSome, ← Finmap.mem_keys]
              exact hf
            rw [hkeys] at hstay
            have hm' := hstay m (Finset.mem_insert_of_mem hm) fun hg =>
              hleft (mem_toFinset.2 hg)
            have hsum' := hstay sumField (Finset.mem_insert_self _ _) fun hg =>
              hnot (hmember _ hg)
            exact Nat.not_lt.2 hall (Finset.one_lt_card.2
              ⟨m, hm', sumField, hsum', fun e => hnot (e ▸ hm)⟩)
          have hzero : retire sum (gone.map h.lookup) = .zero := by
            refine Amount.units_injective ?_
            rw [units_retire_eq, ← sum_toFinset _ (z.nodup_rangeByScore _ _), hevery, hunits]
            simp only [heldUnits, hh, hz]
            exact Nat.sub_self _
          obtain ⟨h', z', hh', hz', hscore⟩ := hdrop σ₂
          refine ⟨.zero, (σ₂.del .pending).del .expiry, h', z', by rw [hzero], ?_, hh', hz',
            fun m _ => hscore m⟩
          rw [if_pos hall, Script.bind_ok (dropPending_apply σ₂)]
          rfl
        · set h₂ := Hash.setAll (h.eraseAll gone)
            [(sumField, formatAmount (retire sum (gone.map h.lookup)))] with hh
          refine ⟨retire sum (gone.map h.lookup), σ₂.putHash .pending h₂, h₂, z.rem gone, rfl, ?_,
            Server.hash?_putHash σ₂ .pending h₂, ?_, fun m hm => ?_⟩
          · rw [if_neg hall, Script.bind_ok (hset_apply hh₂ _)]
            rfl
          · rw [← Server.zset?_putZset σ₁ .expiry (z.rem gone)]
            exact Server.zset?_congr (Server.putHash_store_ne _ _ (by decide))
          · rw [ZSet.score?_rem, hm z hz]
            split <;> rfl

end Pending

/-! ## Checks and reservations of the smallest amount -/

theorem recordLease_apply {σ : Server CostKey} {h : Hash} {z : ZSet}
    (hh : σ.hash? .pending = .ok h) (hz : σ.zset? .expiry = .ok z) (r : Request) (a : Assessment)
    (held : Amount) : ∃ τ, recordLease r a held σ = (.ok (), τ) := by
  have hz₁ : ∀ h', (σ.putHash .pending h').zset? .expiry = .ok z := by
    intro h'
    rw [← hz]
    exact Server.zset?_congr (Server.putHash_store_ne _ _ (by decide))
  have hstore : storeLease r.lease r.amount held (Lua.double (a.nowMs + r.leaseTtl)) false σ
      = (.ok (), (σ.putHash .pending
          (Hash.setAll h [(r.lease, formatAmount r.amount), (sumField, formatAmount held)])).putZset
            .expiry (z.add (Lua.double (a.nowMs + r.leaseTtl)) r.lease)) := by
    rw [storeLease, Script.bind_ok (hset_apply hh _), if_neg Bool.false_ne_true]
    exact zadd_apply (hz₁ _) _ _
  exact ⟨_, by rw [recordLease, Script.bind_ok hstore]; rfl⟩

section Waits

variable {a : Assessment} {held : Amount} {p : Period} {l : Amount}

/-- The windows that are full with what is held. -/
def Assessment.full (a : Assessment) (held : Amount) (p : Period) : Bool :=
  (a.limit p).any (exceeds .check (addAmount (a.spent p) held))

/-- In a window with something left, the smallest amount has to wait exactly when it is full, and
then for what is held. -/
theorem waitFor_smallest (hl : l.units < Amount.capUnits) {spent : Amount}
    (hspent : spent.units < l.units) (ttl : Nat) :
    waitFor l spent (addAmount held smallest) smallest ttl =
      if exceeds .check (addAmount spent held) l then some (min ttl pendingRetryMs) else none := by
  have hone : smallest.units = 1 := rfl
  have halone : compareAmount (addAmount spent smallest) l ≤ 0 := by
    rw [Amount.compareAmount_le_zero, Amount.units_add]
    omega
  unfold waitFor
  by_cases hfull : exceeds .check (addAmount spent held) l = true
  · have h := hfull
    simp only [exceeds, reduceCtorEq, if_false, decide_eq_true_eq, Amount.neg_one_lt_compareAmount,
      Amount.units_add] at h
    rw [if_pos hfull, if_neg, if_pos halone]
    rw [Amount.compareAmount_le_zero, Amount.units_add, Amount.units_add]
    omega
  · have h := hfull
    simp only [exceeds, reduceCtorEq, if_false, decide_eq_true_eq, Amount.neg_one_lt_compareAmount,
      Amount.units_add] at h
    rw [if_neg hfull, if_pos]
    rw [Amount.compareAmount_le_zero, Amount.units_add, Amount.units_add]
    omega

/-- What every window of a passed check has: something left, of a limit below the cap. -/
def Assessment.Open (a : Assessment) : Prop :=
  ∀ p l, a.limit p = some l → (a.spent p).units < l.units ∧ l.units < Amount.capUnits

/-- How long a refusal for what is held says to wait. -/
def Assessment.wait (a : Assessment) (p : Period) : Nat := min (a.window p).ttl pendingRetryMs

theorem addWait_smallest (ha : a.Open) (refused : Option (Period × Nat)) (p : Period) :
    addWait a (addAmount held smallest) smallest refused p =
      if a.full held p then if refused.all (·.2 < a.wait p) then some (p, a.wait p) else refused
      else refused := by
  unfold addWait Assessment.full
  cases hl : a.limit p with
  | none => rfl
  | some l =>
    obtain ⟨hspent, hcap⟩ := ha p l hl
    rw [bind_some, waitFor_smallest hcap hspent, any_some]
    cases exceeds .check (addAmount (a.spent p) held) l <;> rfl

theorem foldl_addWait_longest (ha : a.Open) (ps : List Period) (p : Period) :
    ps.foldl (addWait a (addAmount held smallest) smallest) (some (p, pendingRetryMs)) =
      some (p, pendingRetryMs) := by
  induction ps with
  | nil => rfl
  | cons q ps ih =>
    have hno : ¬ (some (p, pendingRetryMs)).all (·.2 < a.wait q) = true := by
      simp [Assessment.wait]
    rw [foldl_cons, addWait_smallest ha, if_neg hno, ite_self]
    exact ih

/-- A refusal stays with a full window, for the longest wait of those passed. -/
theorem foldl_addWait_some (ha : a.Open) (ps : List Period) (hp : a.full held p = true) :
    ∃ q, ps.foldl (addWait a (addAmount held smallest) smallest) (some (p, a.wait p)) =
        some (q, a.wait q) ∧ a.full held q = true ∧
      ∀ r ∈ p :: ps, a.full held r = true → a.wait r ≤ a.wait q := by
  induction ps generalizing p with
  | nil => exact ⟨p, rfl, hp, by simp⟩
  | cons r ps ih =>
    simp only [foldl_cons, addWait_smallest ha, all_some, forall_mem_cons, decide_eq_true_eq]
    by_cases hr : a.full held r = true
    · rw [if_pos hr]
      split
      · next hlt =>
        obtain ⟨q, hq, hfull, hmax⟩ := ih hr
        rw [forall_mem_cons] at hmax
        exact ⟨q, hq, hfull, fun _ => hlt.le.trans (hmax.1 hr), hmax⟩
      · next hle =>
        obtain ⟨q, hq, hfull, hmax⟩ := ih hp
        rw [forall_mem_cons] at hmax
        exact ⟨q, hq, hfull, hmax.1, fun _ => (Nat.not_lt.mp hle).trans (hmax.1 hp), hmax.2⟩
    · rw [if_neg hr]
      obtain ⟨q, hq, hfull, hmax⟩ := ih hp
      rw [forall_mem_cons] at hmax
      exact ⟨q, hq, hfull, hmax.1, fun h => absurd h hr, hmax.2⟩

/-- The reservation is refused exactly when some window is full; it names one with the longest
wait, and the first of them when that one has a second left. -/
theorem foldl_addWait_first (ha : a.Open) (held : Amount) (ps : List Period) :
    match ps.find? (a.full held) with
    | none => ps.foldl (addWait a (addAmount held smallest) smallest) none = none
    | some p => ∃ q,
        ps.foldl (addWait a (addAmount held smallest) smallest) none = some (q, a.wait q) ∧
          a.full held q = true ∧ (∀ r ∈ ps, a.full held r = true → a.wait r ≤ a.wait q) ∧
          (pendingRetryMs ≤ (a.window p).ttl → q = p) := by
  induction ps with
  | nil => rfl
  | cons p ps ih =>
    rw [find?_cons, foldl_cons, addWait_smallest ha]
    cases hfull : a.full held p with
    | false =>
      simp only [forall_mem_cons, hfull, Bool.false_eq_true, false_implies, true_and]
      exact ih
    | true =>
      obtain ⟨q, hq, hqfull, hmax⟩ := foldl_addWait_some ha ps hfull
      refine ⟨q, hq, hqfull, hmax, fun hsecond => ?_⟩
      rw [Assessment.wait, min_eq_right hsecond, foldl_addWait_longest ha] at hq
      exact (congrArg Prod.fst (some.inj hq)).symm

end Waits

/-- A check reports the first window that is full with what is held. -/
theorem checkPending_apply {σ : Server CostKey} {r : Request} {a : Assessment} {held : Amount}
    (hmode : r.mode = .check) (hread : pendingTotal a.nowMs true σ = (.ok held, σ)) :
    checkPending r a σ = (.ok (match periods.find? (a.full held) with
      | some p => reserveReply .refused (.spent p) (a.wait p) a.window
      | none => reserveReply .ok .ok 0 a.window), σ) := by
  have hexceeded : firstExceeded .check a.limit (fun p => addAmount (a.spent p) held) =
      periods.find? (a.full held) := rfl
  rw [checkPending, Script.bind_ok hread, hmode, hexceeded]
  cases periods.find? (a.full held) <;> rfl

/-- The smallest reservation is refused by the full window with the longest wait. -/
theorem reserve_smallest_apply {σ τ : Server CostKey} {r : Request} {a : Assessment}
    {held : Amount} {h : Hash} {z : ZSet} {lease : Text} (htimed : a.Timed)
    (hsweep : pendingTotal a.nowMs false σ = (.ok held, τ)) (hh : τ.hash? .pending = .ok h)
    (hz : τ.zset? .expiry = .ok z) (hscore : z.score? lease = none) (n : Nat) :
    ∃ τ', reserve (r.asReservation lease n) a σ =
      (.ok (match longestWait a (addAmount held smallest) smallest with
        | some (p, wait) => reserveReply .refused (.estimate p) wait a.window
        | none => reserveReply .ok .ok 0 a.window), τ') := by
  have hzscore : zscore .expiry lease τ = (.ok none, τ) := by rw [zscore_apply hz, hscore]
  have hadmit : admitPriced (r.asReservation lease n) a σ =
      (.ok (judgePending (r.asReservation lease n) a held), τ) := by
    rw [admitPriced, Script.bind_ok hsweep]
    exact Script.bind_ok hzscore
  have hpriced : (r.asReservation lease n).priced = true := rfl
  rw [reserve, if_pos hpriced, Script.bind_ok hadmit, judgePending]
  have hamount : (r.asReservation lease n).amount = smallest := rfl
  rw [hamount]
  cases longestWait a (addAmount held smallest) smallest with
  | some wait => exact ⟨τ, rfl⟩
  | none =>
    obtain ⟨τ₁, hrefresh, -, hp, he⟩ := refreshBalances_stores htimed τ
    obtain ⟨τ₂, hrecord⟩ := recordLease_apply ((Server.hash?_congr hp).trans hh)
      ((Server.zset?_congr he).trans hz) (r.asReservation lease n) a (addAmount held smallest)
    refine ⟨τ₂, ?_⟩
    dsimp only
    rw [Script.bind_ok hrefresh, Script.bind_ok hrecord]
    rfl

/-- **A check is a reservation of the smallest amount.**  On every state whose pending keys are
in step, a check writes nothing, and it answers as a reservation of `0.000000000001`
under a fresh lease would: the same reply, except where every window has something left of its
limit and the total held fills one.  Then both refuse; the check names the first window that is
full and the reservation, with `_estimate`, the one with the longest wait.  These are the same
window when a second is left of the first. -/
theorem check_eq_smallest_reservation (cjson : Text → Option (List Grant)) {σ : Server CostKey}
    (hσ : InStep σ) (keys : Nat) {argv : List Text}
    (hcheck : arg argv 4 = "check".toList) (hnumber : (number argv 6).isSome) {lease ttl : Text}
    {n : Nat} (hlease : validLease lease = true)
    (hfresh : ∀ z, σ.zset? .expiry = .ok z → z.score? lease = none)
    (httl : parseSafeUnsignedInteger (some ttl) = some n) (hn : 1 ≤ n) :
    ∃ reply reply' τ, reserveCost cjson keys argv σ = (.ok reply, σ) ∧
      reserveCost cjson keys (asReservation argv lease ttl) σ = (.ok reply', τ) ∧
      reply'.verdict = reply.verdict ∧
      (reply' = reply ∨ ∃ r a held p q, parseReserve keys argv = some r ∧
        assess cjson r σ = .ok a ∧ a.Open ∧ pendingTotal a.nowMs true σ = (.ok held, σ) ∧
        reply = reserveReply .refused (.spent p) (a.wait p) a.window ∧
        reply' = reserveReply .refused (.estimate q) (a.wait q) a.window ∧
        periods.find? (a.full held) = some p ∧ a.full held q = true ∧
        (∀ s, a.full held s = true → a.wait s ≤ a.wait q) ∧
        (pendingRetryMs ≤ (a.window p).ttl → q = p)) := by
  unfold reserveCost
  rw [parseReserve_asReservation hcheck hnumber hlease httl hn]
  cases hparse : parseReserve keys argv with
  | none => exact ⟨_, _, σ, rfl, rfl, rfl, .inl rfl⟩
  | some r =>
    have hparsed := parseReserve_eq_some hparse
    have hmode : r.mode = .check := by
      rw [hparsed.mode, hcheck]
      decide
    dsimp only [map_some]
    rw [Script.read_bind, Script.read_bind, assess_asReservation hmode]
    cases hassess : assess cjson r σ with
    | error reply => exact ⟨reply, reply, σ, rfl, rfl, rfl, .inl rfl⟩
    | ok a =>
      have hopen : a.Open := fun p l hl =>
        ⟨assess_lt hmode hassess hl, assess_limit_lt hparsed.limit_lt hassess hl⟩
      have htimed := (assess_eq_ok hparsed.limit_lt hassess).timed
      obtain ⟨held, τ, h, z, hread, hsweep, hh, hz, hscore⟩ := hσ.pendingTotal_modes a.nowMs
      have hfirst := foldl_addWait_first hopen held periods
      have hcond : ¬ r.mode = .reserve := by simp [hmode]
      have hreserve : (r.asReservation lease n).mode = .reserve := rfl
      obtain ⟨τ', hτ'⟩ := reserve_smallest_apply (r := r) htimed hsweep hh hz
        (hscore lease hfresh) n
      dsimp only
      rw [if_neg hcond, if_pos hreserve, checkPending_apply hmode hread, hτ', longestWait]
      cases hfull : periods.find? (a.full held) with
      | none =>
        rw [hfull] at hfirst
        rw [hfirst]
        exact ⟨_, _, τ', rfl, rfl, rfl, .inl rfl⟩
      | some p =>
        rw [hfull] at hfirst
        obtain ⟨q, hwait, hqfull, hmax, hsame⟩ := hfirst
        rw [hwait]
        exact ⟨_, _, τ', rfl, rfl, rfl,
          .inr ⟨r, a, held, p, q, rfl, hassess, hopen, hread, rfl, rfl,
          hfull, hqfull, fun s => hmax s (mem_periods s), hsame⟩⟩

/-! Half a second before the end of a day, 4 are spent and 6 are held of a daily and a monthly
limit of 10. -/

/-- A snapshot of 4 for the day and the month, and a reservation of 6. -/
def lastMoments : List Event :=
  [⟨6399500000, .reconcile 4 ["19675".toList, ['4'], "24286".toList, ['4'], ['0'], ['0'], []]⟩,
    ⟨0, .reserve 4 ["10".toList, "10".toList, ['0'], ['6'], sampleLease, "60000".toList]⟩]

def lastServer : Server CostKey :=
  (run (Ledger.step noIncreases) (.start blankServer) lastMoments).server

def checkBoth : List Text := ["10".toList, "10".toList, ['0'], "check".toList, [], ['0']]

def freshLease : Text := List.replicate 32 'b'

theorem lastServer_inStep : InStep lastServer :=
  (pendingKeys_sound noIncreases blankServer rfl rfl lastMoments
    ⟨⟨by decide, by decide⟩, ⟨by decide, by decide⟩, trivial⟩).1

theorem lastServer_fresh : ∀ z, lastServer.zset? .expiry = .ok z → z.score? freshLease = none := by
  have h : (zscore .expiry freshLease lastServer).1 = .ok none := by decide
  intro z hz
  rw [zscore_apply hz] at h
  exact Except.ok.inj h

theorem check_eq_smallest_reservation_lastServer :
    ∃ reply reply' τ, reserveCost noIncreases 4 checkBoth lastServer = (.ok reply, lastServer) ∧
      reserveCost noIncreases 4 (asReservation checkBoth freshLease "60000".toList) lastServer
        = (.ok reply', τ) ∧ reply'.verdict = reply.verdict := by
  obtain ⟨reply, reply', τ, hcheck, hreserve, hverdict, -⟩ :=
    @check_eq_smallest_reservation noIncreases lastServer lastServer_inStep 4 checkBoth
      (by decide) (by decide) freshLease "60000".toList 60000 (by decide)
      lastServer_fresh (by decide) (by decide)
  exact ⟨reply, reply', τ, hcheck, hreserve, hverdict⟩

/-- The check names the day, and the reservation the month. -/
theorem lastServer_dimensions_differ :
    InStep lastServer ∧ (∀ z, lastServer.zset? .expiry = .ok z → z.score? freshLease = none) ∧
    (reserveCost noIncreases 4 checkBoth lastServer).1 =
      .ok ⟨.refused, .spent .day, [500, 19675, 24286]⟩ ∧
    (reserveCost noIncreases 4 (asReservation checkBoth freshLease "60000".toList) lastServer).1 =
      .ok ⟨.refused, .estimate .month, [1000, 19675, 24286]⟩ :=
  ⟨lastServer_inStep, lastServer_fresh, by decide, by decide⟩

end Olp.Cost
