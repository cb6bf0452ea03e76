import Olp.Cost.Pending

/-!
# What the pending keys stand for

The two pending keys of an owner stand for a table of holds: a lease, its amount and
the millisecond it expires at.  `Represents σ L` says that the keys of `σ` hold the
table `L`: either both are absent and `L` is empty, or the hash has the field `sum`
and one field per lease, the sorted set one member per lease, the total is that of
the table, and both keys outlast every lease.

Each helper of `cost_pending` then does to the table what its name says:
`pendingTotal_represents`, `removeLease_represents`, `releaseLease_represents`,
`recordLease_represents` and `lowerLease_represents`.  Everything else an owner has
is left alone (`Apart`).
-/

namespace Olp.Cost

open Limits Valkey

/-- One lease's hold. -/
structure Hold where
  amount : Amount
  expires : Nat
deriving DecidableEq, Repr

abbrev Holds := Table Text Hold

def Hold.units (x : Hold) : Nat := x.amount.units

def worth (L : Holds) : Nat := Table.total (fun _ => Hold.units) L

def Hold.text (x : Hold) : Text := formatAmount x.amount

/-! ## Hash and sorted set -/

/-- A hash and a sorted set that hold the leases of a table. -/
structure Records (h : Hash) (z : ZSet) (L : Holds) : Prop where
  scores : ∀ m, z.score? m = (L.lookup m).map Hold.expires
  amounts : ∀ m, m ≠ sumField → h.lookup m = (L.lookup m).map Hold.text
  sum_notMem : sumField ∉ L

namespace Records

variable {h : Hash} {z : ZSet} {L : Holds}

section

variable (hr : Records h z L)

include hr

theorem ne_sumField {m : Text} {x : Hold} (hm : L.lookup m = some x) :
    m ≠ sumField := fun e => hr.sum_notMem (e ▸ Finmap.mem_of_lookup_eq_some hm)

theorem members : z.members = L.keys := by
  ext m
  rw [ZSet.mem_members_iff, hr.scores, Finmap.mem_keys, ← Finmap.lookup_isSome]
  cases L.lookup m <;> simp

theorem keys {s : Text} (hs : h.lookup sumField = some s) : h.keys = insert sumField L.keys := by
  ext m
  rw [Finset.mem_insert, Finmap.mem_keys, Finmap.mem_keys, ← Finmap.lookup_isSome,
    ← Finmap.lookup_isSome]
  by_cases hm : m = sumField
  · subst hm
    simp [hs]
  · rw [hr.amounts m hm]
    simp [hm]

theorem card_keys {s : Text} (hs : h.lookup sumField = some s) : h.keys.card = L.keys.card + 1 := by
  have hnot : sumField ∉ L.keys := fun hk => hr.sum_notMem (Finmap.mem_keys.1 hk)
  rw [hr.keys hs, Finset.card_insert_of_notMem hnot]

theorem card : z.card = L.keys.card := by rw [ZSet.card_eq, hr.members]

theorem rem (ms : List Text) : Records (h.eraseAll ms) (z.rem ms) (L.eraseAll ms) where
  scores m := by
    rw [ZSet.score?_rem, Table.lookup_eraseAll, hr.scores]
    split <;> rfl
  amounts m hm := by
    rw [Table.lookup_eraseAll, Table.lookup_eraseAll, hr.amounts m hm]
    split <;> rfl
  sum_notMem := by
    rw [← Finmap.lookup_eq_none, Table.lookup_eraseAll, Finmap.lookup_eq_none.2 hr.sum_notMem]
    split <;> rfl

theorem setSum (s : Text) : Records (h.setAll [(sumField, s)]) z L where
  scores := hr.scores
  amounts m hm := by
    rw [← hr.amounts m hm]
    exact Finmap.lookup_insert_of_ne _ hm
  sum_notMem := hr.sum_notMem

theorem store {m : Text} (hm : m ≠ sumField) (x : Hold) (s : Text) (z' : ZSet)
    (hz : ∀ n, z'.score? n = if n = m then some x.expires else z.score? n) :
    Records (h.setAll [(m, x.text), (sumField, s)]) z' (Finmap.insert m x L) where
  scores n := by
    rw [hz, Table.lookup_insert_eq, hr.scores]
    split <;> rfl
  amounts n hn := by
    simp only [Hash.setAll, List.foldl_cons, List.foldl_nil, Table.lookup_insert_eq, hn, if_false]
    split
    · rfl
    · exact hr.amounts n hn
  sum_notMem := by
    rw [Finmap.mem_insert, not_or]
    exact ⟨hm.symm, hr.sum_notMem⟩

end

protected theorem empty : Records ∅ .empty ∅ where
  scores m := by simp
  amounts m _ := by simp
  sum_notMem := Finmap.notMem_empty

end Records

variable {L : Holds} {t : Amount} (h : Hash) (s : Text)

@[simp] theorem lookup_setSum :
    (h.setAll [(sumField, s)]).lookup sumField = some s := Finmap.lookup_insert _

@[simp] theorem lookup_setLease (m a s : Text) :
    (h.setAll [(m, a), (sumField, s)]).lookup sumField = some s := Finmap.lookup_insert _

theorem mem_setLease (m a s : Text) : sumField ∈ h.setAll [(m, a), (sumField, s)] :=
  Finmap.mem_of_lookup_eq_some (lookup_setLease h m a s)

theorem mem_setSum : sumField ∈ h.setAll [(sumField, s)] :=
  Finmap.mem_of_lookup_eq_some (lookup_setSum h s)

/-! ## Totals as the scripts compute them -/

theorem units_replace {m : Text} {x : Hold} (ht : t.units = worth (Finmap.erase m L)) :
    (addAmount t x.amount).units = min (worth (Finmap.insert m x L)) Amount.capUnits := by
  rw [Amount.units_add, ht, worth, worth, Table.total_insert, Nat.add_comm]
  rfl

theorem units_without {m : Text} {x : Hold} (hm : L.lookup m = some x) (ht : t.units = worth L) :
    (subAmount t x.amount).units = worth (Finmap.erase m L) := by
  rw [Amount.units_sub, ht, worth, Table.total_eq_add_erase _ hm]
  exact Nat.add_sub_cancel_left _ _

/-- Taking the amounts of leases off an exact total leaves the exact total of the
rest. -/
theorem units_retire {h : Hash} {gone : List Text} (ht : t.units = worth L) (hnodup : gone.Nodup)
    (hgone : ∀ m ∈ gone, ∃ x, L.lookup m = some x ∧ h.lookup m = some x.text) :
    (retire t (gone.map h.lookup)).units = worth (L.eraseAll gone) := by
  induction gone generalizing t L with
  | nil => exact ht
  | cons m gone ih =>
    obtain ⟨x, hx, htext⟩ := hgone m List.mem_cons_self
    obtain ⟨hm, hnodup⟩ := List.nodup_cons.1 hnodup
    have hstep : retire t ((m :: gone).map h.lookup)
        = retire (subAmount t x.amount) (gone.map h.lookup) := by
      simp [retire, htext, Hold.text]
    rw [hstep, Table.eraseAll_cons]
    refine ih (units_without hx ht) hnodup fun n hn => ?_
    obtain ⟨y, hy, hytext⟩ := hgone n (List.mem_cons_of_mem _ hn)
    have hne : n ≠ m := fun e => hm (e ▸ hn)
    exact ⟨y, by rwa [Finmap.lookup_erase_ne hne], hytext⟩

/-! ## Represented tables -/

/-- Two servers that differ in the pending keys at most. -/
structure Apart (σ τ : Server CostKey) : Prop where
  micros : τ.micros = σ.micros
  store : ∀ k, k ≠ .pending → k ≠ .expiry → τ.store k = σ.store k

namespace Apart

variable {σ τ υ : Server CostKey}

theorem refl (σ : Server CostKey) : Apart σ σ := ⟨rfl, fun _ _ _ => rfl⟩

theorem trans (h₁ : Apart σ τ) (h₂ : Apart τ υ) : Apart σ υ :=
  ⟨h₂.micros.trans h₁.micros, fun k hp he => (h₂.store k hp he).trans (h₁.store k hp he)⟩

theorem now (h : Apart σ τ) : τ.now = σ.now := by rw [Server.now, Server.now, h.micros]

end Apart

/-- The pending keys hold the table `L`, with `t` as its total and `d` as the last
millisecond of both keys. -/
structure Keeps (σ : Server CostKey) (h : Hash) (z : ZSet) (L : Holds) (t : Amount) (d : Nat) :
    Prop where
  pending : σ.store .pending = some ⟨.hash h, some d⟩
  expiry : σ.store .expiry = some ⟨.zset z, some d⟩
  records : Records h z L
  sum : h.lookup sumField = some (formatAmount t)
  total : t.units = min (worth L) Amount.capUnits
  nonempty : L ≠ ∅
  outlasts : ∀ m x, L.lookup m = some x → x.expires ≤ d ∧ x.expires ≤ σ.now + 2 ^ 53

/-- The pending keys of a server stand for a table of holds. -/
inductive Represents (σ : Server CostKey) (L : Holds) : Prop
  | empty (pending : σ.store .pending = none) (expiry : σ.store .expiry = none) (none : L = ∅)
  | held (h : Hash) (z : ZSet) (t : Amount) (d : Nat) (keeps : Keeps σ h z L t d)

theorem keys_card_ne_zero (h : L ≠ ∅) : L.keys.card ≠ 0 := fun hc =>
  h (Table.eq_empty_of_keys (Finset.card_eq_zero.1 hc))

namespace Keeps

variable {σ : Server CostKey} {h} {z : ZSet} {d : Nat}

variable (hk : Keeps σ h z L t d)

include hk

theorem hash? : σ.hash? .pending = .ok h := Server.hash?_of_hash hk.pending

theorem zset? : σ.zset? .expiry = .ok z := Server.zset?_of_zset hk.expiry

theorem inspect : inspect σ = .held t := by
  have hz : z.card ≠ 0 := by
    rw [hk.records.card]
    exact keys_card_ne_zero hk.nonempty
  have hcard : h.keys.card = z.card + 1 := by
    rw [hk.records.card_keys hk.sum, hk.records.card]
  simp [Cost.inspect, hk.hash?, hk.zset?, hk.sum, hcard, hz]

theorem lookup_of_mem_rangeByScore {m : Text} {n limit : Nat} (hm : m ∈ z.rangeByScore n limit) :
    ∃ x, L.lookup m = some x ∧ h.lookup m = some x.text ∧ x.expires ≤ n := by
  obtain ⟨s, hs, hle⟩ := ZSet.mem_rangeByScore hm
  rw [hk.records.scores] at hs
  obtain ⟨x, hx, rfl⟩ := Option.map_eq_some_iff.1 hs
  exact ⟨x, hx, by rw [hk.records.amounts m (hk.records.ne_sumField hx), hx]; rfl, hle⟩

/-- Leases leave the hash and the sorted set; unless they were all there is, the new
total completes the books. -/
theorem remove (ms : List Text) (hms : sumField ∉ ms) :
    ∃ σ₁ σ₂, hdel .pending ms σ = (.ok (), σ₁) ∧ zrem .expiry ms σ₁ = (.ok (), σ₂) ∧
      hlen .pending σ₂ = (.ok ((L.eraseAll ms).keys.card + 1), σ₂) ∧ Apart σ σ₂ ∧
      ∀ s : Amount, L.eraseAll ms ≠ ∅ → s.units = min (worth (L.eraseAll ms)) Amount.capUnits →
        ∃ τ, hset .pending [(sumField, formatAmount s)] σ₂ = (.ok (), τ) ∧ Apart σ τ ∧
          Represents τ (L.eraseAll ms) := by
  have hr := hk.records.rem ms
  have hsum : (h.eraseAll ms).lookup sumField = some (formatAmount t) := by
    rw [Table.lookup_eraseAll, if_neg hms, hk.sum]
  have hput :=
    Server.putHash_of_mem (σ := σ) (k := CostKey.pending) (Finmap.mem_of_lookup_eq_some hsum)
  set σ₁ := σ.put .pending (.hash (h.eraseAll ms)) with hσ₁
  set σ₂ := σ₁.putZset .expiry (z.rem ms) with hσ₂
  have hp₂ : σ₂.store .pending = some ⟨.hash (h.eraseAll ms), some d⟩ := by
    simp [hσ₂, hσ₁, hk.pending]
  have hh₂ : σ₂.hash? .pending = .ok (h.eraseAll ms) := Server.hash?_of_hash hp₂
  have hz₁ : σ₁.zset? .expiry = .ok z := Server.zset?_of_zset (by simpa [hσ₁] using hk.expiry)
  have hapart : Apart σ σ₂ := ⟨by simp [hσ₂, hσ₁], fun k hp he => by simp [hσ₂, hσ₁, hp, he]⟩
  refine ⟨σ₁, σ₂, by rw [hdel_apply hk.hash?, hput], zrem_apply hz₁ ms,
    by rw [hlen_apply hh₂, hr.card_keys hsum], hapart, fun s hne hs => ?_⟩
  have hz : (z.rem ms).card ≠ 0 := by
    rw [hr.card]
    exact keys_card_ne_zero hne
  have hapart' : Apart σ₂ (σ₂.put .pending
      (.hash (Hash.setAll (h.eraseAll ms) [(sumField, formatAmount s)]))) :=
    ⟨rfl, fun k hp _ => by simp [hp]⟩
  refine ⟨_, by rw [hset_apply hh₂, Server.putHash_of_mem (mem_setSum _ _)],
    hapart.trans hapart', .held _ (z.rem ms) s d
      ⟨by simp [hp₂], ?_, hr.setSum _, lookup_setSum _ _, hs, hne, fun m x hm => ?_⟩⟩
  · simp [hσ₂, Server.putZset_of_card hz, hσ₁, hk.expiry]
  · rw [Table.lookup_eraseAll] at hm
    split at hm
    · simp at hm
    · rw [(hapart.trans hapart').now]
      exact hk.outlasts m x hm

end Keeps

variable (σ : Server CostKey)

theorem dropPending_apply : dropPending σ = (.ok (), (σ.del .pending).del .expiry) := rfl

theorem represents_drop : Represents ((σ.del .pending).del .expiry) ∅ :=
  .empty (by simp) (by simp) rfl

theorem apart_drop : Apart σ ((σ.del .pending).del .expiry) :=
  ⟨rfl, fun k hp he => by simp [hp, he]⟩

theorem inspect_of_empty {σ : Server CostKey} (hp : σ.store .pending = none)
    (he : σ.store .expiry = none) : inspect σ = .empty := by
  simp [inspect, Server.hash?_of_none hp, Server.zset?_of_none he, hp]

/-! ## The helpers of `cost_pending` on represented tables -/

section Helpers

variable {σ}

/-- What `pending_total` retires: leases whose time has come. -/
def Lapsed (L : Holds) (now : Nat) (gone : List Text) : Prop :=
  ∀ m ∈ gone, ∃ x, L.lookup m = some x ∧ x.expires ≤ now

theorem Represents.sumField_notMem (hr : Represents σ L) {gone : List Text} {now : Nat}
    (hg : Lapsed L now gone) : sumField ∉ gone := fun hm => by
  obtain ⟨x, hx, -⟩ := hg _ hm
  cases hr with
  | empty _ _ hL => simp [hL] at hx
  | held h z t d hk => exact hk.records.sum_notMem (Finmap.mem_of_lookup_eq_some hx)

variable {z : ZSet}

theorem Keeps.total_eq {h : Hash} {t : Amount} {d : Nat} (hk : Keeps σ h z L t d)
    (hlt : worth L < Amount.capUnits) : t.units = worth L := by
  rw [hk.total, min_eq_left (Nat.le_of_lt hlt)]

theorem min_worth_eraseAll (hlt : worth L < Amount.capUnits) (gone : List Text) :
    min (worth (L.eraseAll gone)) Amount.capUnits = worth (L.eraseAll gone) :=
  min_eq_left ((Table.total_eraseAll_le _ L gone).trans (Nat.le_of_lt hlt))

theorem pendingTotal_of_held {sum : Amount} (hi : inspect σ = .held sum)
    (hz : σ.zset? .expiry = .ok z) (now : Nat) (readOnly : Bool) : pendingTotal now readOnly σ =
    (if z.rangeByScore now sweepLimit = [] then pure sum
    else hmget .pending (z.rangeByScore now sweepLimit) >>= fun amounts =>
      if readOnly then pure (retire sum amounts)
      else do
        hdel .pending (z.rangeByScore now sweepLimit)
        zrem .expiry (z.rangeByScore now sweepLimit)
        closeSweep (retire sum amounts)) σ := by
  rw [pendingTotal, Script.read_bind, hi]
  dsimp only
  exact Script.query_bind_ok (by rw [hz]; rfl)

section Sweep

variable {h} {d : Nat} (hk : Keeps σ h z L t d)

include hk

theorem Keeps.lapsed : Lapsed L σ.now (z.rangeByScore σ.now sweepLimit) := fun m hm => by
  obtain ⟨x, hx, -, hle⟩ := hk.lookup_of_mem_rangeByScore hm
  exact ⟨x, hx, hle⟩

theorem Keeps.units_retire (hlt : worth L < Amount.capUnits) :
    (retire t ((z.rangeByScore σ.now sweepLimit).map h.lookup)).units =
      worth (L.eraseAll (z.rangeByScore σ.now sweepLimit)) :=
  Cost.units_retire (hk.total_eq hlt) (z.nodup_rangeByScore _ _) fun m hm => by
    obtain ⟨x, hx, htext, -⟩ := hk.lookup_of_mem_rangeByScore hm
    exact ⟨x, hx, htext⟩

end Sweep

/-- `pending_total` retires lapsed leases and answers the total of the rest. -/
theorem pendingTotal_represents (hr : Represents σ L) (hlt : worth L < Amount.capUnits) :
    ∃ a τ gone, pendingTotal σ.now false σ = (.ok a, τ) ∧ Apart σ τ ∧ Lapsed L σ.now gone ∧
      Represents τ (L.eraseAll gone) ∧ a.units = worth (L.eraseAll gone) := by
  cases hr with
  | empty hp he hL =>
    refine ⟨.zero, σ, [], ?_, .refl σ, by simp [Lapsed], .empty hp he hL, by simp [hL, worth]⟩
    rw [pendingTotal, Script.read_bind, inspect_of_empty hp he]
    rfl
  | held h z t d hk =>
    have hunits := hk.units_retire hlt
    have hlapsed := hk.lapsed
    rw [pendingTotal_of_held hk.inspect hk.zset?]
    generalize z.rangeByScore σ.now sweepLimit = gone at *
    by_cases hnil : gone = []
    · refine ⟨t, σ, [], ?_, .refl σ, by simp [Lapsed], .held h z t d hk, hk.total_eq hlt⟩
      rw [if_pos hnil]
      rfl
    · obtain ⟨σ₁, σ₂, hd, hzr, hlen, hapart, hsum⟩ :=
        hk.remove gone ((Represents.held h z t d hk).sumField_notMem hlapsed)
      rw [if_neg hnil, Script.bind_ok (hmget_apply hk.hash? gone), if_neg Bool.false_ne_true,
        Script.bind_ok hd, Script.bind_ok hzr, closeSweep, Script.bind_ok hlen]
      by_cases hall : L.eraseAll gone = ∅
      · have hle : (L.eraseAll gone).keys.card + 1 ≤ 1 := by simp [hall]
        refine ⟨.zero, (σ₂.del .pending).del .expiry, gone, ?_, hapart.trans (apart_drop σ₂),
          hlapsed, hall ▸ represents_drop σ₂, by simp [hall, worth]⟩
        rw [if_pos hle, Script.bind_ok (dropPending_apply σ₂)]
        rfl
      · have hgt : ¬ (L.eraseAll gone).keys.card + 1 ≤ 1 := by
          have := keys_card_ne_zero hall
          omega
        obtain ⟨τ, hτ, hapart', hrep⟩ := hsum (retire t (gone.map h.lookup)) hall (by
          rw [hunits, min_worth_eraseAll hlt])
        refine ⟨_, τ, gone, ?_, hapart', hlapsed, hrep, hunits⟩
        rw [if_neg hgt, Script.bind_ok hτ]
        rfl

/-- A read-only total is that of the table without lapsed leases, and writes nothing. -/
theorem pendingTotal_readOnly (hr : Represents σ L) (hlt : worth L < Amount.capUnits) :
    ∃ a gone, pendingTotal σ.now true σ = (.ok a, σ) ∧ Lapsed L σ.now gone ∧
      a.units = worth (L.eraseAll gone) := by
  cases hr with
  | empty hp he hL =>
    refine ⟨.zero, [], ?_, by simp [Lapsed], by simp [hL, worth]⟩
    rw [pendingTotal, Script.read_bind, inspect_of_empty hp he]
    rfl
  | held h z t d hk =>
    refine ⟨_, _, ?_, hk.lapsed, hk.units_retire hlt⟩
    rw [pendingTotal_of_held hk.inspect hk.zset?]
    split
    · next hnil => rw [hnil]; rfl
    · rw [Script.bind_ok (hmget_apply hk.hash? _), if_pos rfl]
      rfl

variable {m : Text}

/-- The two keys answer a lease's amount and expiry from the table. -/
theorem Represents.read (hr : Represents σ L) (hm : m ≠ sumField) :
    hget .pending m σ = (.ok ((L.lookup m).map Hold.text), σ) ∧
      zscore .expiry m σ = (.ok ((L.lookup m).map Hold.expires), σ) := by
  cases hr with
  | empty hp he hL =>
    rw [hget_apply (Server.hash?_of_none hp), zscore_apply (Server.zset?_of_none he), hL]
    simp
  | held h z t d hk =>
    rw [hget_apply hk.hash?, zscore_apply hk.zset?, hk.records.amounts m hm, hk.records.scores]
    exact ⟨rfl, rfl⟩

variable {x : Hold} (hr : Represents σ L)

include hr

/-- `remove_lease` removes the lease it is given the amount of. -/
theorem removeLease_represents (hlt : worth L < Amount.capUnits)
    (hm : L.lookup m = some x) {s : Amount} (hs : s.units = worth L) :
    ∃ τ, removeLease m (some x.text) s σ = (.ok (), τ) ∧ Apart σ τ ∧
      Represents τ (Finmap.erase m L) := by
  cases hr with
  | empty hp he hL => simp [hL] at hm
  | held h z t d hk =>
    have hne := hk.records.ne_sumField hm
    have hlen : hlen .pending σ = (.ok (L.keys.card + 1), σ) := by
      rw [hlen_apply hk.hash?, hk.records.card_keys hk.sum]
    have hkeys : (Finmap.erase m L).keys.card = L.keys.card - 1 := by
      rw [Finmap.keys_erase]
      exact Finset.card_erase_of_mem (Finmap.mem_keys.2 (Finmap.mem_of_lookup_eq_some hm))
    rw [removeLease, Script.bind_ok hlen]
    by_cases hlast : L.keys.card + 1 ≤ 2
    · have hall : Finmap.erase m L = ∅ :=
        Table.eq_empty_of_keys (Finset.card_eq_zero.1 (by omega))
      rw [if_pos hlast]
      exact ⟨_, dropPending_apply σ, apart_drop σ, hall ▸ represents_drop σ⟩
    · have hall : Finmap.erase m L ≠ ∅ := fun e => by
        rw [e] at hkeys
        simp at hkeys
        omega
      have hsub := units_without hm hs
      obtain ⟨σ₁, σ₂, hd, hzr, -, hapart, hsum⟩ := hk.remove [m] (by simpa using hne.symm)
      obtain ⟨τ, hτ, hapart', hrep⟩ := hsum (subAmount s x.amount) hall
        (hsub.trans (min_worth_eraseAll hlt [m]).symm)
      have hpcall : (zrem .expiry [m]).pcall σ₁ = (.ok (.ok ()), σ₂) := by
        rw [Script.pcall, hzr]
      refine ⟨τ, ?_, hapart', hrep⟩
      rw [if_neg hlast, Script.bind_ok hd, Script.bind_ok hpcall]
      simpa [Hold.text] using hτ

theorem releaseLease_represents (hlt : worth L < Amount.capUnits) (hm : m ≠ sumField) :
    ∃ n τ, releaseLease m σ = (.ok n, τ) ∧ Apart σ τ ∧ Represents τ (Finmap.erase m L) := by
  cases hr with
  | empty hp he hL =>
    have hget : (hmget .pending [m, sumField]).pcall σ = (.ok (.ok [none, none]), σ) := by
      rw [Script.pcall, hmget_apply (Server.hash?_of_none hp)]
      simp
    refine ⟨0, σ, ?_, .refl σ, .empty hp he ?_⟩
    · rw [releaseLease, Script.bind_ok hget]
      rfl
    · rw [hL, Table.erase_of_notMem Finmap.notMem_empty]
  | held h z t d hk =>
    have hget : (hmget .pending [m, sumField]).pcall σ
        = (.ok (.ok [(L.lookup m).map Hold.text, some (formatAmount t)]), σ) := by
      rw [Script.pcall, hmget_apply hk.hash?]
      simp [hk.records.amounts m hm, hk.sum]
    rw [releaseLease, Script.bind_ok hget]
    cases hx : L.lookup m with
    | none =>
      refine ⟨0, σ, rfl, .refl σ, ?_⟩
      rw [Table.erase_of_notMem (Finmap.lookup_eq_none.1 hx)]
      exact .held h z t d hk
    | some x =>
      obtain ⟨τ, hτ, hapart, hrep⟩ :=
        removeLease_represents (.held h z t d hk) hlt hx (hk.total_eq hlt)
      refine ⟨1, τ, ?_, hapart, hrep⟩
      simp only [Option.map_some, parseAmount_formatAmount, Option.getD_some]
      rw [Script.bind_ok hτ]
      rfl

theorem Represents.open :
    ∃ h z, σ.hash? .pending = .ok h ∧ σ.zset? .expiry = .ok z ∧ Records h z L ∧
      ∀ m x, L.lookup m = some x → x.expires ≤ σ.now + (σ.pttl .pending).toNat ∧
        x.expires ≤ σ.now + 2 ^ 53 := by
  cases hr with
  | empty hp he hL =>
    refine ⟨∅, .empty, Server.hash?_of_none hp, Server.zset?_of_none he, hL ▸ .empty,
      fun m x hm => ?_⟩
    simp [hL] at hm
  | held h z t d hk =>
    refine ⟨h, z, hk.hash?, hk.zset?, hk.records, fun m x hm => ?_⟩
    obtain ⟨h₁, h₂⟩ := hk.outlasts m x hm
    have hpttl : σ.pttl .pending = (d : Int) - σ.now := by simp [Server.pttl, hk.pending]
    exact ⟨by omega, h₂⟩

omit hr in
theorem Records.card_ne_zero {h : Hash} (hr : Records h z (Finmap.insert m x L)) : z.card ≠ 0 := by
  rw [hr.card, Table.keys_insert]
  exact Finset.card_ne_zero_of_mem (Finset.mem_insert_self _ _)

/-- `store_lease` and `outlive` add a lease, and the keys outlast it and whatever
they outlasted before. -/
theorem storeLease_represents (hm : m ≠ sumField) (x : Hold) {total : Amount}
    (hnow : σ.now < x.expires) (hmax : x.expires ≤ σ.now + 2 ^ 53)
    (htotal : total.units = min (worth (Finmap.insert m x L)) Amount.capUnits) :
    ∃ τ, (do storeLease m x.amount total x.expires false; outlive x.expires σ.now) σ
        = (.ok (), τ) ∧ Apart σ τ ∧ Represents τ (Finmap.insert m x L) := by
  obtain ⟨h, z, hh, hz, hrec, hlast⟩ := hr.open
  have hrec' := hrec.store hm x (formatAmount total) (z.add x.expires m)
    fun n => ZSet.score?_add
  set h' := Hash.setAll h [(m, x.text), (sumField, formatAmount total)] with hh'
  set σ₁ := σ.put .pending (.hash h') with hσ₁
  set σ₂ := σ₁.put .expiry (.zset (z.add x.expires m)) with hσ₂
  have hz₁ : σ₁.zset? .expiry = .ok z := by
    rw [← hz]
    simp [Server.zset?, hσ₁]
  have hstore : storeLease m x.amount total x.expires false σ = (.ok (), σ₂) := by
    rw [storeLease, Script.bind_ok (hset_apply hh _), if_neg Bool.false_ne_true,
      Server.putHash_of_mem (mem_setLease _ _ _ _)]
    exact (zadd_apply hz₁ _ _).trans (by rw [Server.putZset_of_card hrec'.card_ne_zero])
  have hpttl : (σ₂.pttl .pending).toNat = (σ.pttl .pending).toNat := by
    cases hp : σ.store .pending with
    | none => simp [Server.pttl, hσ₂, hσ₁, hp]
    | some e =>
      obtain ⟨v, dl⟩ := e
      cases dl <;> simp [Server.pttl, hσ₂, hσ₁, hp, Server.now]
  set ttl := max (Lua.double (σ₂.pttl .pending).toNat)
    (Lua.double (Lua.double (x.expires - σ.now) + 1000)) with httl
  -- the new lease: its own time to live and a second
  have hnew : x.expires - σ.now ≤ ttl := by
    refine le_trans ?_ (le_max_right _ _)
    rw [Lua.double_of_le (by omega : x.expires - σ.now ≤ 2 ^ 53)]
    exact Lua.le_double (by omega) (by omega)
  have hpos : ttl ≠ 0 := by omega
  have hout : outlive x.expires σ.now σ₂
      = (.ok (), (σ₂.pexpire .pending ttl).pexpire .expiry ttl) := rfl
  refine ⟨(σ₂.pexpire .pending ttl).pexpire .expiry ttl, ?_, ⟨by simp [hσ₂, hσ₁],
    fun k hp he => by simp [hσ₂, hσ₁, hp, he]⟩, .held h' (z.add x.expires m) total (σ.now + ttl)
      ⟨?_, ?_, hrec', lookup_setLease _ _ _ _, htotal, ?_, ?_⟩⟩
  · rw [Script.bind_ok hstore, hout]
  · rw [Server.pexpire_store_ne _ _ (by decide)]
    exact Server.pexpire_store_self (by simp [hσ₂, hσ₁]; rfl) hpos
  · rw [Server.pexpire_store_self (v := .zset (z.add x.expires m)) (by simp [hσ₂]; rfl) hpos]
    simp [hσ₂, hσ₁]
  · exact Table.insert_ne_empty L m x
  · intro n y hn
    have hsame : ((σ₂.pexpire .pending ttl).pexpire .expiry ttl).now = σ.now := by simp [hσ₂, hσ₁]
    rw [hsame]
    rw [Table.lookup_insert_eq] at hn
    split at hn
    · obtain rfl : x = y := by simpa using hn
      omega
    · obtain ⟨h₁, h₂⟩ := hlast n y hn
      -- an older lease: the time to live the keys had
      have hold : y.expires - σ.now ≤ ttl := by
        refine le_trans ?_ (le_max_left _ _)
        exact Lua.le_double (by omega) (by omega)
      exact ⟨by omega, h₂⟩

/-- A settlement writes a lease's new amount and lowers its expiry; the keys keep the
time they had. -/
theorem lowerLease_represents (hm : L.lookup m = some x) (a : Amount)
    (expires : Nat) {total : Amount} (htotal : total.units
      = min (worth (Finmap.insert m ⟨a, min x.expires expires⟩ L)) Amount.capUnits) :
    ∃ τ, storeLease m a total expires true σ = (.ok (), τ) ∧ Apart σ τ ∧
      Represents τ (Finmap.insert m ⟨a, min x.expires expires⟩ L) := by
  cases hr with
  | empty hp he hL => simp [hL] at hm
  | held h z t d hk =>
    have hscore : z.score? m = some x.expires := by rw [hk.records.scores, hm]; rfl
    set y : Hold := ⟨a, min x.expires expires⟩ with hy
    set z' := if expires < x.expires then z.add expires m else z with hz'
    have hrec := hk.records.store (hk.records.ne_sumField hm) y (formatAmount total) z'
      fun n => by
        rw [hz']
        split
        · rename_i hlt
          rw [ZSet.score?_add, hy, min_eq_right (Nat.le_of_lt hlt)]
        · rename_i hge
          rw [hy, min_eq_left (Nat.not_lt.1 hge)]
          split
          · rename_i e
            rw [e, hscore]
          · rfl
    set h' := Hash.setAll h [(m, y.text), (sumField, formatAmount total)] with hh'
    set σ₁ := σ.put .pending (.hash h') with hσ₁
    have hz₁ : σ₁.zset? .expiry = .ok z := Server.zset?_of_zset (by simpa [hσ₁] using hk.expiry)
    refine ⟨σ₁.put .expiry (.zset z'), ?_, ⟨rfl, fun k hp he => by simp [hσ₁, hp, he]⟩,
      .held h' z' total d ⟨by simp [hσ₁, hk.pending], by simp [hσ₁, hk.expiry], hrec,
        lookup_setLease _ _ _ _, htotal, ?_, fun n w hn => ?_⟩⟩
    · rw [storeLease, Script.bind_ok (hset_apply hk.hash? _), if_pos rfl,
        Server.putHash_of_mem (mem_setLease _ _ _ _)]
      exact (zaddLt_apply hz₁ hscore expires).trans
        (by rw [← hz', Server.putZset_of_card hrec.card_ne_zero])
    · exact Table.insert_ne_empty L m y
    · rw [Table.lookup_insert_eq] at hn
      split at hn
      · obtain rfl : y = w := by simpa using hn
        obtain ⟨h₁, h₂⟩ := hk.outlasts m x hm
        exact ⟨le_trans (min_le_left _ _) h₁, le_trans (min_le_left _ _) h₂⟩
      · exact hk.outlasts n w hn

end Helpers

end Olp.Cost
