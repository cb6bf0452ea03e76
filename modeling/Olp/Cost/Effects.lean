import Olp.Cost.Assess
import Olp.Cost.Install
import Olp.Cost.Settle

/-!
# What each cost script does to the holds

For a server whose pending keys stand for a table of holds, one theorem per script
says what table they stand for afterwards: `settleCost_effect`, `reserveCost_effect`
and `reconcileCost_effect`.  A call first retires lapsed leases (`Lapsed`), then
changes the hold of the one lease it names.  Balances and the durable exposure keep
their values under a reservation and a settlement (`Untouched`).
-/

namespace Olp.Cost

open Limits Valkey

/-! ## Settlement -/

/-- The table after a settlement: a lapsed lease goes, a live one takes its new
amount, or goes with an amount of nothing. -/
def settleHolds (now : Nat) (s : Settlement) (L : Holds) : Holds :=
  match L.lookup s.lease with
  | none => L
  | some x =>
    if x.expires ≤ now ∨ s.release then Finmap.erase s.lease L
    else Finmap.insert s.lease ⟨s.amount, min x.expires (Lua.double (now + s.ttl))⟩ L

section

variable {now : Nat} {s : Settlement} {L : Holds} {x : Hold}

theorem settleHolds_absent (h : L.lookup s.lease = none) : settleHolds now s L = L := by
  simp [settleHolds, h]

theorem settleHolds_gone (h : L.lookup s.lease = some x)
    (hgone : x.expires ≤ now ∨ s.release = true) :
    settleHolds now s L = Finmap.erase s.lease L := by
  simp [settleHolds, h, hgone]

theorem settleHolds_live (h : L.lookup s.lease = some x) (hnow : now < x.expires)
    (hs : s.release = false) :
    settleHolds now s L
      = Finmap.insert s.lease ⟨s.amount, min x.expires (Lua.double (now + s.ttl))⟩ L := by
  simp [settleHolds, h, hs, Nat.not_le.2 hnow]

end

variable {argv : List Text}

theorem parseSettlement_valid {keys : Nat} {s : Settlement}
    (h : parseSettlement keys argv = some s) : validLease s.lease = true := by
  revert h
  fun_cases parseSettlement <;> grind

variable {σ : Server CostKey} {L : Holds}

theorem settle_effect (hr : Represents σ L) (hlt : worth L < Amount.capUnits) {s : Settlement}
    (hs : s.lease ≠ sumField) :
    ∃ reply τ gone, settle σ.now s σ = (.ok reply, τ) ∧ reply.verdict = .ok ∧ Apart σ τ ∧
      Lapsed L σ.now gone ∧ Represents τ (settleHolds σ.now s (L.eraseAll gone)) := by
  obtain ⟨a, τ, gone, hrun, hapart, hlapsed, hrep, hunits⟩ := pendingTotal_represents hr hlt
  have hlt' : worth (L.eraseAll gone) < Amount.capUnits :=
    (Table.total_eraseAll_le _ L gone).trans_lt hlt
  obtain ⟨hget, hscore⟩ := hrep.read hs
  rw [settle, Script.bind_ok hrun, Script.bind_ok hget]
  generalize hM : L.eraseAll gone = M at *
  cases hx : M.lookup s.lease with
  | none =>
    refine ⟨_, τ, gone, rfl, rfl, hapart, hlapsed, ?_⟩
    rw [hM, settleHolds_absent hx]
    exact hrep
  | some x =>
    rw [hx] at hscore
    dsimp only [Option.map_some]
    rw [Script.bind_ok hscore]
    obtain ⟨τ', hremove, hapart', hrep'⟩ := removeLease_represents hrep hlt' hx hunits
    by_cases hexp : x.expires ≤ σ.now
    · refine ⟨⟨.ok, .ok, [0, 0]⟩, τ', gone, ?_, rfl, hapart.trans hapart', hlapsed, ?_⟩
      · rw [if_pos (by simpa using hexp), Script.bind_ok hremove]
        rfl
      · rw [hM, settleHolds_gone hx (.inl hexp)]
        exact hrep'
    · rw [if_neg (by simpa using hexp)]
      by_cases hrel : s.release = true
      · refine ⟨⟨.ok, .ok, [1, 0]⟩, τ', gone, ?_, rfl, hapart.trans hapart', hlapsed, ?_⟩
        · rw [if_pos hrel, Script.bind_ok hremove]
          rfl
        · rw [hM, settleHolds_gone hx (.inr hrel)]
          exact hrep'
      · obtain ⟨τ'', hstore, hapart'', hrep''⟩ :=
          lowerLease_represents hrep hx s.amount (Lua.double (σ.now + s.ttl))
            (units_replace (x := ⟨s.amount, _⟩) (units_without hx hunits))
        refine ⟨⟨.ok, .ok, [1, 0]⟩, τ'', gone, ?_, rfl, hapart.trans hapart'', hlapsed, ?_⟩
        · rw [if_neg hrel]
          simp only [Hold.text, parseAmount_formatAmount, Option.elim_some]
          rw [Script.bind_ok hstore]
          rfl
        · rw [hM, settleHolds_live hx (Nat.not_le.1 hexp) (Bool.not_eq_true _ ▸ hrel)]
          exact hrep''

theorem settleCost_effect (hr : Represents σ L) (hlt : worth L < Amount.capUnits) (keys : Nat)
    (argv : List Text) :
    ∃ reply τ, settleCost keys argv σ = (.ok reply, τ) ∧ Apart σ τ ∧
      (reply.verdict = .failed ∧ Represents τ L ∨
        ∃ s gone, parseSettlement keys argv = some s ∧ reply.verdict = .ok ∧
          Lapsed L σ.now gone ∧ Represents τ (settleHolds σ.now s (L.eraseAll gone))) := by
  unfold settleCost
  cases hparse : parseSettlement keys argv with
  | none => exact ⟨_, σ, rfl, .refl σ, .inl ⟨rfl, hr⟩⟩
  | some s =>
    dsimp only
    rw [Script.read_bind]
    cases htime : currentTime 0 σ.micros with
    | none => exact ⟨_, σ, rfl, .refl σ, .inl ⟨rfl, hr⟩⟩
    | some nowMs =>
      obtain rfl : nowMs = σ.now := (currentTime_zero htime).1
      obtain ⟨reply, τ, gone, hrun, hok, hapart, hlapsed, hrep⟩ :=
        settle_effect hr hlt (ne_sumField_of_validLease (parseSettlement_valid hparse))
      exact ⟨reply, τ, hrun, hapart, .inr ⟨s, gone, rfl, hok, hlapsed, hrep⟩⟩

/-! ## Reservation -/

/-- Two servers with the same values in every key but the pending ones; a balance may
have got a deadline. -/
structure Untouched (σ τ : Server CostKey) : Prop where
  micros : τ.micros = σ.micros
  value : ∀ k, k ≠ .pending → k ≠ .expiry →
    (τ.store k).map Entry.value = (σ.store k).map Entry.value

variable {τ : Server CostKey}

theorem Apart.untouched (h : Apart σ τ) : Untouched σ τ :=
  ⟨h.micros, fun k hp he => by rw [h.store k hp he]⟩

namespace Untouched

variable {υ : Server CostKey}

theorem refl (σ : Server CostKey) : Untouched σ σ := (Apart.refl σ).untouched

theorem trans (h₁ : Untouched σ τ) (h₂ : Untouched τ υ) : Untouched σ υ :=
  ⟨h₂.micros.trans h₁.micros, fun k hp he => (h₂.value k hp he).trans (h₁.value k hp he)⟩

theorem now (h : Untouched σ τ) : τ.now = σ.now := by rw [Server.now, Server.now, h.micros]

end Untouched

theorem Represents.congr (hr : Represents σ L) (hp : τ.store .pending = σ.store .pending)
    (he : τ.store .expiry = σ.store .expiry) (hnow : τ.now = σ.now) : Represents τ L := by
  cases hr with
  | empty hp' he' hL => exact .empty (hp.trans hp') (he.trans he') hL
  | held h z t d hk =>
    exact .held h z t d { hk with
      pending := hp.trans hk.pending
      expiry := he.trans hk.expiry
      outlasts := by
        rw [hnow]
        exact hk.outlasts }

theorem refreshBalance_apply (a : Assessment) (ha : a.Timed) (p : Period) (σ : Server CostKey) :
    ∃ τ, refreshBalance a p σ = (.ok (), τ) ∧ Untouched σ τ ∧
      τ.store .pending = σ.store .pending ∧ τ.store .expiry = σ.store .expiry := by
  refine ⟨_, rfl, ?_⟩
  have hk : balanceKey p ≠ .pending ∧ balanceKey p ≠ .expiry := by cases p <;> decide
  dsimp only
  split
  · rename_i h
    refine ⟨⟨by simp, fun k _ _ => ?_⟩, Server.pexpire_store_ne _ _ hk.1.symm,
      Server.pexpire_store_ne _ _ hk.2.symm⟩
    by_cases hkk : k = balanceKey p
    · subst hkk
      cases he : σ.store (balanceKey p) with
      | none => simp [Server.pexpire, he]
      | some e => rw [Server.pexpire_store_self (v := e.value) (d := e.deadline) he (ha p h.1)]; rfl
    · rw [Server.pexpire_store_ne _ _ hkk]
  · exact ⟨.refl σ, rfl, rfl⟩

variable {a : Assessment}

theorem refreshBalances_stores (ha : a.Timed) (σ : Server CostKey) :
    ∃ τ, refreshBalances a σ = (.ok (), τ) ∧ Untouched σ τ ∧
      τ.store .pending = σ.store .pending ∧ τ.store .expiry = σ.store .expiry := by
  obtain ⟨σ₁, h₁, hu₁, hp₁, he₁⟩ := refreshBalance_apply a ha .day σ
  obtain ⟨σ₂, h₂, hu₂, hp₂, he₂⟩ := refreshBalance_apply a ha .month σ₁
  obtain ⟨σ₃, h₃, hu₃, hp₃, he₃⟩ := refreshBalance_apply a ha .week σ₂
  refine ⟨σ₃, ?_, (hu₁.trans hu₂).trans hu₃, hp₃.trans (hp₂.trans hp₁), he₃.trans (he₂.trans he₁)⟩
  rw [refreshBalances, Script.bind_ok h₁, Script.bind_ok h₂, h₃]

theorem refreshBalances_apply (ha : a.Timed) (hr : Represents σ L) :
    ∃ τ, refreshBalances a σ = (.ok (), τ) ∧ Untouched σ τ ∧ Represents τ L := by
  obtain ⟨τ, hrun, hu, hp, he⟩ := refreshBalances_stores ha σ
  exact ⟨τ, hrun, hu, hr.congr hp he hu.now⟩

/-- A request whose lease is held, live, for at least its amount. -/
def Redelivery (now : Nat) (r : Request) (L : Holds) : Prop :=
  ∃ x, L.lookup r.lease = some x ∧ now < x.expires ∧ r.amount.units ≤ x.amount.units

variable {now : Nat}

/-- Retiring lapsed leases does not touch a live one. -/
theorem lookup_eraseAll_live {gone : List Text} (hg : Lapsed L now gone) {m : Text} {x : Hold}
    (hx : now < x.expires) : (L.eraseAll gone).lookup m = some x ↔ L.lookup m = some x := by
  rw [Table.lookup_eraseAll]
  split
  · rename_i hm
    obtain ⟨y, hy, hle⟩ := hg m hm
    refine iff_of_false (by simp) fun h => ?_
    obtain rfl : y = x := by simpa [hy] using h
    omega
  · rfl

theorem lapsed_append {gone : List Text} (hg : Lapsed L now gone) {m : Text} {x : Hold}
    (hm : L.lookup m = some x) (hx : x.expires ≤ now) : Lapsed L now (gone ++ [m]) := by
  intro n hn
  rcases List.mem_append.1 hn with h | h
  · exact hg n h
  · obtain rfl := List.mem_singleton.1 h
    exact ⟨x, hm, hx⟩

theorem eraseAll_append_singleton (gone : List Text) (m : Text) :
    L.eraseAll (gone ++ [m]) = Finmap.erase m (L.eraseAll gone) := by
  simp [Table.eraseAll]

variable {r : Request}

/-- The pending side of a priced request: a redelivery is granted as it stands, and
anything else is judged beside what is held without it. -/
theorem admitPriced_effect (hr : Represents σ L) (hlt : worth L < Amount.capUnits)
    (hnow : a.nowMs = σ.now) (hlease : r.lease ≠ sumField) :
    ∃ result τ gone, admitPriced r a σ = (.ok result, τ) ∧ Apart σ τ ∧ Lapsed L σ.now gone ∧
      Represents τ (L.eraseAll gone) ∧
      (Redelivery σ.now r L ∧ result = .error (reserveReply .ok .ok 0 a.window) ∨
        ¬ Redelivery σ.now r L ∧ ∃ pending : Amount,
          pending.units = worth (Finmap.erase r.lease (L.eraseAll gone)) ∧
            result = judgePending r a pending) := by
  obtain ⟨held, τ, gone, hrun, hapart, hlapsed, hrep, hunits⟩ := pendingTotal_represents hr hlt
  have hlt' : worth (L.eraseAll gone) < Amount.capUnits :=
    (Table.total_eraseAll_le _ L gone).trans_lt hlt
  obtain ⟨hget, hscore⟩ := hrep.read hlease
  rw [admitPriced, hnow, Script.bind_ok hrun, Script.bind_ok hscore]
  cases hx : (L.eraseAll gone).lookup r.lease with
  | none =>
    refine ⟨_, τ, gone, rfl, hapart, hlapsed, hrep, .inr ⟨?_, held, ?_, rfl⟩⟩
    · rintro ⟨x, hx', hlive, -⟩
      rw [← lookup_eraseAll_live hlapsed hlive, hx] at hx'
      simp at hx'
    · rw [Table.erase_of_notMem (Finmap.lookup_eq_none.1 hx), hunits]
  | some x =>
    rw [hx] at hget
    dsimp only [Option.map_some]
    rw [Script.bind_ok hget]
    dsimp only [Option.map_some]
    rw [Hold.text, parseAmount_formatAmount]
    dsimp only
    have hsub := units_without hx hunits
    by_cases hlive : σ.now < x.expires
    · have hL := (lookup_eraseAll_live hlapsed hlive).1 hx
      rw [if_pos hlive]
      by_cases hle : compareAmount r.amount x.amount ≤ 0
      · rw [if_pos hle]
        exact ⟨_, τ, gone, rfl, hapart, hlapsed, hrep,
          .inl ⟨⟨x, hL, hlive, Amount.compareAmount_le_zero.1 hle⟩, rfl⟩⟩
      · rw [if_neg hle]
        refine ⟨_, τ, gone, rfl, hapart, hlapsed, hrep, .inr ⟨?_, _, hsub, rfl⟩⟩
        rintro ⟨y, hy, -, hyle⟩
        obtain rfl : x = y := by simpa [hL] using hy
        exact hle (Amount.compareAmount_le_zero.2 hyle)
    · rw [if_neg hlive]
      obtain ⟨n, τ', hrel, hapart', hrep'⟩ := releaseLease_represents hrep hlt' hlease
      rw [Script.bind_ok hrel]
      have hL : L.lookup r.lease = some x := by
        rw [Table.lookup_eraseAll] at hx
        split at hx
        · simp at hx
        · exact hx
      refine ⟨_, τ', gone ++ [r.lease], rfl, hapart.trans hapart',
        lapsed_append hlapsed hL (Nat.not_lt.1 hlive), ?_, .inr ⟨?_, _, ?_, rfl⟩⟩
      · rw [eraseAll_append_singleton]
        exact hrep'
      · rintro ⟨y, hy, hylive, -⟩
        obtain rfl : x = y := by simpa [hL] using hy
        exact hlive hylive
      · rw [hsub, eraseAll_append_singleton,
          Table.erase_of_notMem (t := Finmap.erase r.lease (L.eraseAll gone))
            (by simp [Finmap.mem_erase])]

theorem foldl_longestWait {held amount : Amount} {ps : List Period}
    {refused : Option (Period × Nat)} (h : ps.foldl (addWait a held amount) refused = none) :
    refused = none ∧ ∀ p ∈ ps, ∀ l, a.limit p = some l →
      waitFor l (a.spent p) held amount (a.window p).ttl = none := by
  induction ps generalizing refused with
  | nil => exact ⟨h, by simp⟩
  | cons q ps ih =>
    obtain ⟨hq, hps⟩ := ih h
    -- a window that refuses leaves something to report
    have hq' : refused = none ∧
        ((a.limit q).bind fun l => waitFor l (a.spent q) held amount (a.window q).ttl) = none := by
      unfold addWait at hq
      split at hq
      · rename_i hnone
        exact ⟨hq, hnone⟩
      · split at hq
        · simp at hq
        · rename_i hall
          exact absurd (by simp [hq]) hall
    refine ⟨hq'.1, fun p hp l hl => ?_⟩
    rcases List.mem_cons.1 hp with rfl | hmem
    · simpa [hl] using hq'.2
    · exact hps p hmem l hl

theorem judgePending_eq_ok {pending held : Amount} (h : judgePending r a pending = .ok held) :
    held = addAmount pending r.amount ∧ ∀ p l, a.limit p = some l → l.units < Amount.capUnits →
      (a.spent p).units + held.units ≤ l.units ∧ held.units < Amount.capUnits := by
  unfold judgePending at h
  dsimp only at h
  split at h
  · simp at h
  · rename_i hwait
    cases h
    refine ⟨rfl, fun p l hl hlt => ?_⟩
    have hfit := (foldl_longestWait hwait).2 p (mem_periods p) l hl
    unfold waitFor at hfit
    split at hfit
    · rename_i hle
      rw [Amount.compareAmount_le_zero, Amount.units_add] at hle
      omega
    · split at hfit <;> simp at hfit

theorem judgePending_error {pending : Amount} {reply : Reply}
    (h : judgePending r a pending = .error reply) : reply.verdict = .refused := by
  unfold judgePending at h
  dsimp only at h
  split at h
  · cases h
    rfl
  · simp at h

def Request.hold (r : Request) (now : Nat) : Hold := ⟨r.amount, Lua.double (now + r.leaseTtl)⟩

theorem hold_bounds {ttl : Nat} (hnow : now < 2 ^ 53) (hpos : 1 ≤ ttl)
    (hmax : ttl ≤ maxSafeInteger) :
    now < Lua.double (now + ttl) ∧ Lua.double (now + ttl) ≤ now + 2 ^ 53 := by
  have hmax' : ttl < 2 ^ 53 := by
    simp only [maxSafeInteger] at hmax
    omega
  have hlow : now + 1 ≤ Lua.double (now + ttl) := Lua.le_double (by omega) (by omega)
  have hhigh := Lua.double_le (n := now + ttl) (by omega)
  omega

/-- The request's hold is kept beside `L`, and each balance has room for all that is then held. -/
def Placed (r : Request) (a : Assessment) (now : Nat) (L : Holds) (τ : Server CostKey) : Prop :=
  Represents τ (Finmap.insert r.lease (r.hold now) L) ∧
    ∀ p l, a.limit p = some l → l.units < Amount.capUnits →
      (a.spent p).units + worth (Finmap.insert r.lease (r.hold now) L) ≤ l.units

/-- What a priced reservation does once its balances allow one. -/
theorem reserve_effect (hr : Represents σ L) (hlt : worth L < Amount.capUnits)
    (hpriced : r.priced = true) (hnow : a.nowMs = σ.now) (hnow' : σ.now < 2 ^ 53)
    (hlease : r.lease ≠ sumField) (hpos : 1 ≤ r.leaseTtl) (hmax : r.leaseTtl ≤ maxSafeInteger)
    (ha : a.Timed) :
    ∃ reply τ gone, reserve r a σ = (.ok reply, τ) ∧ Untouched σ τ ∧ Lapsed L σ.now gone ∧
      ((reply.verdict = .refused ∨ reply.verdict = .ok ∧ Redelivery σ.now r L) ∧
          Represents τ (L.eraseAll gone) ∨
        reply.verdict = .ok ∧ ¬ Redelivery σ.now r L ∧ Placed r a σ.now (L.eraseAll gone) τ) := by
  obtain ⟨result, τ, gone, hrun, hapart, hlapsed, hrep, hresult⟩ :=
    admitPriced_effect hr hlt (r := r) hnow hlease
  rw [reserve, if_pos hpriced, Script.bind_ok hrun]
  rcases hresult with ⟨hre, rfl⟩ | ⟨hnot, pending, hunits, rfl⟩
  · exact ⟨_, τ, gone, rfl, hapart.untouched, hlapsed, .inl ⟨.inr ⟨rfl, hre⟩, hrep⟩⟩
  · cases hjudge : judgePending r a pending with
    | error reply =>
      exact ⟨reply, τ, gone, rfl, hapart.untouched, hlapsed,
        .inl ⟨.inl (judgePending_error hjudge), hrep⟩⟩
    | ok held =>
      obtain ⟨hheld, hfits⟩ := judgePending_eq_ok hjudge
      have htotal : held.units
          = min (worth (Finmap.insert r.lease (r.hold σ.now) (L.eraseAll gone)))
            Amount.capUnits := hheld ▸ units_replace (x := r.hold σ.now) hunits
      obtain ⟨τ₁, hrefresh, hun₁, hrep₁⟩ := refreshBalances_apply ha hrep
      have hnow₁ : τ₁.now = σ.now := hun₁.now.trans hapart.now
      obtain ⟨hb₁, hb₂⟩ := hold_bounds hnow' hpos hmax
      obtain ⟨τ₂, hstore, hapart₂, hrep₂⟩ := storeLease_represents hrep₁ hlease (r.hold σ.now)
        (hnow₁ ▸ hb₁) (hnow₁ ▸ hb₂) htotal
      have hrecord : recordLease r a held τ₁ = (.ok (), τ₂) := by
        rw [← hstore, hnow₁, recordLease, hnow]
        rfl
      refine ⟨reserveReply .ok .ok 0 a.window, τ₂, gone, ?_,
        (hapart.untouched.trans hun₁).trans hapart₂.untouched, hlapsed,
        .inr ⟨rfl, hnot, hrep₂, fun p l hl hlt => ?_⟩⟩
      · dsimp only
        rw [Script.bind_ok hrefresh, Script.bind_ok hrecord]
        rfl
      · obtain ⟨h₁, h₂⟩ := hfits p l hl hlt
        omega

/-- The priced request that a reply grants. -/
def granted (keys : Nat) (argv : List Text) (reply : Reply) : Option Request :=
  if reply.verdict = .ok then
    (parseReserve keys argv).filter fun r => r.mode = .reserve ∧ r.priced = true
  else none

theorem granted_eq_some {keys : Nat} {reply : Reply} (h : granted keys argv reply = some r) :
    reply.verdict = .ok ∧ parseReserve keys argv = some r ∧ r.mode = .reserve ∧
      r.priced = true := by
  unfold granted at h
  split at h
  · rename_i hok
    obtain ⟨hparse, hr⟩ := Option.filter_eq_some_iff.1 h
    simp only [decide_eq_true_eq] at hr
    exact ⟨hok, hparse, hr⟩
  · simp at h

/-- `reserve_cost.lua` by the server's clock. -/
theorem reserveCost_effect (cjson : Text → Option (List Grant)) (hr : Represents σ L)
    (hlt : worth L < Amount.capUnits) (keys : Nat) (hzero : number argv 3 = some 0) :
    ∃ reply τ gone, reserveCost cjson keys argv σ = (.ok reply, τ) ∧ Untouched σ τ ∧
      Lapsed L σ.now gone ∧
      ((∀ r, granted keys argv reply = some r → Redelivery σ.now r L) ∧
          Represents τ (L.eraseAll gone) ∨
        ∃ r a, granted keys argv reply = some r ∧ ¬ Redelivery σ.now r L ∧
          assess cjson r σ = .ok a ∧ Placed r a σ.now (L.eraseAll gone) τ) := by
  have hnone : Lapsed L σ.now [] := by simp [Lapsed]
  unfold reserveCost
  cases hparse : parseReserve keys argv with
  | none =>
    exact ⟨_, σ, [], rfl, .refl σ, hnone, .inl ⟨by simp [granted, reserveFailure], hr⟩⟩
  | some r =>
    have hparsed := parseReserve_eq_some hparse
    have hover : r.override = 0 := Option.some.inj (hparsed.override.symm.trans hzero)
    dsimp only
    rw [Script.read_bind]
    cases hassess : assess cjson r σ with
    | error reply =>
      have := assess_eq_error hassess
      exact ⟨reply, σ, [], rfl, .refl σ, hnone, .inl ⟨by simp [granted, this], hr⟩⟩
    | ok a =>
      have hassessed := assess_eq_ok hparsed.limit_lt hassess
      obtain ⟨hnow, hnow'⟩ := currentTime_zero (hover ▸ hassessed.time)
      replace hnow : a.nowMs = σ.now := hnow
      dsimp only
      by_cases hmode : r.mode = .reserve
      · rw [if_pos hmode]
        by_cases hpriced : r.priced = true
        · obtain ⟨hpos, hvalid⟩ := hparsed.priced hpriced
          obtain ⟨reply, τ, gone, hrun, hun, hlapsed, heffect⟩ :=
            reserve_effect hr hlt hpriced hnow (hnow ▸ hnow')
              (ne_sumField_of_validLease hvalid) hpos hparsed.leaseTtl hassessed.timed
          refine ⟨reply, τ, gone, hrun, hun, hlapsed, ?_⟩
          rcases heffect with ⟨hverdict, hrep⟩ | ⟨hok, hnot, hrep, hfits⟩
          · refine .inl ⟨fun r' hr' => ?_, hrep⟩
            obtain ⟨hok, hparse', -⟩ := granted_eq_some hr'
            obtain rfl : r = r' := by simpa [hparse] using hparse'
            rcases hverdict with href | ⟨-, hre⟩
            · simp [href] at hok
            · exact hre
          · exact .inr ⟨r, a, by simp [granted, hok, hparse, hmode, hpriced], hnot, hassess,
              hrep, hfits⟩
        · obtain ⟨τ, hrun, hun, hrep⟩ := refreshBalances_apply hassessed.timed hr
          refine ⟨reserveReply .ok .ok 0 a.window, τ, [], ?_, hun, hnone, .inl ⟨?_, hrep⟩⟩
          · rw [reserve, if_neg hpriced, Script.bind_ok hrun]
            rfl
          · simp [granted, hparse, hpriced]
      · obtain ⟨held, gone, hrun, -⟩ := pendingTotal_readOnly hr hlt
        have hsame : ∃ reply, checkPending r a σ = (.ok reply, σ) := by
          rw [checkPending, hnow, Script.bind_ok hrun]
          cases firstExceeded r.mode a.limit fun p => addAmount (a.spent p) held with
          | none | some p => exact ⟨_, rfl⟩
        obtain ⟨reply, hreply⟩ := hsame
        refine ⟨reply, σ, [], ?_, .refl σ, hnone, .inl ⟨?_, hr⟩⟩
        · rw [if_neg hmode, hreply]
        · simp [granted, hparse, hmode]

/-! ## Reconciliation -/

/-- The table after a reconciliation: the lease it accounts for goes. -/
def accountHolds (request : Text) (L : Holds) : Holds :=
  if request = [] then L else Finmap.erase request L

theorem releaseRequest_effect (hr : Represents σ L) (hlt : worth L < Amount.capUnits)
    {request : Text} (hvalid : request ≠ [] → validLease request = true) :
    ∃ τ, releaseRequest request σ = (.ok (), τ) ∧ Apart σ τ ∧
      Represents τ (accountHolds request L) := by
  unfold releaseRequest accountHolds
  split
  · exact ⟨σ, rfl, .refl σ, hr⟩
  · rename_i hne
    obtain ⟨n, τ, hrel, hapart, hrep⟩ :=
      releaseLease_represents hr hlt (ne_sumField_of_validLease (hvalid hne))
    refine ⟨τ, ?_, hapart, hrep⟩
    rw [Script.bind_ok hrel]
    rfl

theorem reconcileCost_effect (hr : Represents σ L) (hlt : worth L < Amount.capUnits) (keys : Nat)
    (argv : List Text) :
    ∃ reply τ, reconcileCost keys argv σ = (.ok reply, τ) ∧ τ.micros = σ.micros ∧
      (reply.verdict = .failed ∧ τ = σ ∨
        reply.verdict = .ok ∧ (arg argv 7 ≠ [] → validLease (arg argv 7) = true) ∧
          Represents τ (accountHolds (arg argv 7) L)) := by
  cases hplan : planReconcile keys argv σ with
  | error reply =>
    refine ⟨reply, σ, ?_, rfl, .inl ⟨planReconcile_eq_error hplan, rfl⟩⟩
    rw [reconcileCost, Script.read_bind, hplan]
    rfl
  | ok plan =>
    obtain ⟨hs, -⟩ := planReconcile_eq_ok hplan
    obtain ⟨-, hreq, hvalid, -⟩ := parseSnapshot_eq_some hs
    obtain ⟨reply, τ, hrun, hok, hmicros, -, -, σ', τ', hrelease, hmicros', hpending⟩ :=
      reconcileCost_apply hplan
    obtain ⟨hp, hp'⟩ := hpending .pending (.inl rfl)
    obtain ⟨he, he'⟩ := hpending .expiry (.inr rfl)
    have hnow : σ'.now = σ.now := by rw [Server.now, Server.now, hmicros']
    obtain ⟨υ, hrelease', hapart, hrep⟩ := releaseRequest_effect (hr.congr hp he hnow) hlt hvalid
    obtain rfl : τ' = υ := by
      rw [hrelease] at hrelease'
      simpa using hrelease'
    refine ⟨reply, τ, hrun, hmicros,
      .inr ⟨by rw [hok], hreq ▸ hvalid, hreq ▸ hrep.congr hp' he' ?_⟩⟩
    rw [Server.now, Server.now, hmicros, hapart.micros, hmicros']

end Olp.Cost
