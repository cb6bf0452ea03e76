import Olp.Cost.Effects
import Olp.Run

/-!
# The pending keys over whole runs

Any sequence of `reserve_cost.lua`, `settle_cost.lua` and `reconcile_cost.lua` calls
for one owner, with any arguments, under the server's own clock.  Time passes between
calls, and a key whose time has come is gone.

Beside the server a run carries what a reader of the calls and their replies expects
to be held (`noteCall`): a grant holds its lease, a settlement replaces or ends it, a
reconciliation that accounts for it ends it.  `pendingKeys_sound` says that in every
state reached the two keys are in step and their total exact, that no call ever takes
them for damaged, and that every expected hold that has not expired is counted in the
total that any later call reads.
-/

namespace Olp.Cost

open Limits Valkey

/-! ## Calls -/

/-- A call of one of the three scripts, with its raw arguments. -/
inductive Call
  | reserve (keys : Nat) (argv : List Text)
  | settle (keys : Nat) (argv : List Text)
  | reconcile (keys : Nat) (argv : List Text)

/-- The script a call runs. -/
def Call.script (cjson : Text → Option (List Grant)) : Call → Script CostKey Reply
  | .reserve keys argv => reserveCost cjson keys argv
  | .settle keys argv => settleCost keys argv
  | .reconcile keys argv => reconcileCost keys argv

/-- A call that overrides the server's clock, as only tests do, is left out. -/
def Call.ServerTimed : Call → Prop
  | .reserve _ argv => number argv 3 = some 0
  | .settle _ _ => True
  | .reconcile _ argv => number argv 6 = some 0

instance (c : Call) : Decidable c.ServerTimed :=
  match c with
  | .reserve _ argv => inferInstanceAs (Decidable (number argv 3 = some 0))
  | .settle _ _ => .isTrue trivial
  | .reconcile _ argv => inferInstanceAs (Decidable (number argv 6 = some 0))

/-- A call and the microseconds that pass before it. -/
structure Event where
  wait : Nat
  call : Call

/-- The answer to a call and the server it leaves. -/
def perform (cjson : Text → Option (List Grant)) (σ : Server CostKey) (e : Event) :
    Except Fault Reply × Server CostKey :=
  e.call.script cjson (σ.tick (σ.micros + e.wait))

abbrev Expected := Text → Option Hold

/-- A live hold of at least the amount that is asked for. -/
def covers (now : Nat) (r : Request) (o : Option Hold) : Bool :=
  o.any fun x => now < x.expires ∧ r.amount.units ≤ x.amount.units

/-- A grant holds its lease; a repeated delivery of no larger amount changes nothing. -/
def grantExpected (now : Nat) (r : Request) (held : Expected) : Expected :=
  if covers now r (held r.lease) then held
  else Function.update held r.lease (some (r.hold now))

/-- A settlement replaces the amount of a live lease and can only shorten it, or ends
it when the amount is nothing. -/
def settleExpected (now : Nat) (s : Settlement) (held : Expected) : Expected :=
  match held s.lease with
  | none => held
  | some x =>
    if now < x.expires then
      Function.update held s.lease (if s.release then none
        else some ⟨s.amount, min x.expires (Lua.double (now + s.ttl))⟩)
    else held

/-- What a call and its reply change about the expected holds. -/
def noteCall (now : Nat) (call : Call) (reply : Reply) (held : Expected) : Expected :=
  match call with
  | .reserve keys argv => (granted keys argv reply).elim held (grantExpected now · held)
  | .settle keys argv =>
    if reply.verdict = .ok then
      (parseSettlement keys argv).elim held (settleExpected now · held)
    else held
  | .reconcile _ argv =>
    -- the request the snapshot accounts for
    if reply.verdict = .ok ∧ arg argv 7 ≠ [] then Function.update held (arg argv 7) none else held

/-- The server and the holds that are expected on it. -/
structure Ledger where
  server : Server CostKey
  expected : Expected

/-- One call. -/
def Ledger.step (cjson : Text → Option (List Grant)) (l : Ledger) (e : Event) : Ledger :=
  match perform cjson l.server e with
  | (.ok reply, σ) => ⟨σ, noteCall σ.now e.call reply l.expected⟩
  | (.error _, σ) => ⟨σ, l.expected⟩

def Ledger.start (σ : Server CostKey) : Ledger := ⟨σ, fun _ => none⟩

/-- The amounts of the leases in the pending keys, added up exactly. -/
def heldUnits (σ : Server CostKey) : Nat :=
  match σ.hash? .pending, σ.zset? .expiry with
  | .ok h, .ok z => ∑ m ∈ z.members, (parseAmount (h.lookup m)).elim 0 Amount.units
  | _, _ => 0

/-- The two keys are in step: both are absent, or the fields of the hash are the
members of the sorted set and `sum`, every lease has an amount, and `sum` is the
canonical decimal of the exact sum of the amounts. -/
def InStep (σ : Server CostKey) : Prop :=
  (σ.store .pending = none ∧ σ.store .expiry = none) ∨
    ∃ h z d d', σ.store .pending = some ⟨.hash h, d⟩ ∧ σ.store .expiry = some ⟨.zset z, d'⟩ ∧
      sumField ∉ z.members ∧ h.keys = insert sumField z.members ∧
      (∀ m ∈ z.members, ∃ a, h.lookup m = some (formatAmount a)) ∧
      ∃ sum, h.lookup sumField = some (formatAmount sum) ∧ sum.units = heldUnits σ

/-! ## Holds that are still live -/

def live (now : Nat) (o : Option Hold) : Option Hold := o.filter fun x => now < x.expires

@[simp] theorem live_none (now : Nat) : live now none = none := rfl

theorem live_eq_some {now : Nat} {o : Option Hold} {x : Hold} :
    live now o = some x ↔ o = some x ∧ now < x.expires := by
  simp [live, Option.filter_eq_some_iff]

/-- Holds that agree now agree later. -/
theorem live_mono {now later : Nat} (h : now ≤ later) {a b : Option Hold}
    (hab : live now a = live now b) : live later a = live later b := by
  have key : ∀ o, live later o = live later (live now o) := fun o => by
    apply Option.ext
    intro x
    rw [live_eq_some, live_eq_some, live_eq_some]
    constructor
    · rintro ⟨ho, hx⟩
      exact ⟨⟨ho, by omega⟩, hx⟩
    · rintro ⟨⟨ho, -⟩, hx⟩
      exact ⟨ho, hx⟩
  rw [key a, key b, hab]

/-- The table and the expectation agree on every hold that has not expired. -/
def Agrees (now : Nat) (L : Holds) (held : Expected) : Prop :=
  ∀ m, live now (L.lookup m) = live now (held m)

section Agreement

variable {now : Nat} {L : Holds} {held : Expected} (h : Agrees now L held)

include h

theorem Agrees.eraseAll {gone : List Text} (hg : Lapsed L now gone) :
    Agrees now (L.eraseAll gone) held := fun m => by
  rw [← h m]
  apply Option.ext
  intro x
  rw [live_eq_some, live_eq_some]
  constructor
  · rintro ⟨hx, hlive⟩
    exact ⟨(lookup_eraseAll_live hg hlive).1 hx, hlive⟩
  · rintro ⟨hx, hlive⟩
    exact ⟨(lookup_eraseAll_live hg hlive).2 hx, hlive⟩

theorem Agrees.insert (m : Text) (x : Hold) :
    Agrees now (Finmap.insert m x L) (Function.update held m (some x)) := fun n => by
  rw [Table.lookup_insert_eq]
  by_cases hn : n = m
  · simp [hn]
  · simpa [hn] using h n

theorem Agrees.erase (m : Text) :
    Agrees now (Finmap.erase m L) (Function.update held m none) := fun n => by
  rw [Table.lookup_erase_eq]
  by_cases hn : n = m
  · simp [hn]
  · simpa [hn] using h n

theorem Agrees.lookup_iff {m : Text} {x : Hold} (hx : now < x.expires) :
    L.lookup m = some x ↔ held m = some x := by
  have := h m
  constructor
  · intro hl
    rw [live_eq_some.2 ⟨hl, hx⟩] at this
    exact (live_eq_some.1 this.symm).1
  · intro hl
    rw [live_eq_some.2 ⟨hl, hx⟩] at this
    exact (live_eq_some.1 this).1

/-- A settlement does to the table what it does to the expectation. -/
theorem Agrees.settle (s : Settlement) :
    Agrees now (settleHolds now s L) (settleExpected now s held) := by
  -- the lease is live on both sides or on neither
  rcases hlive : live now (L.lookup s.lease) with - | x
  · have hheld : live now (held s.lease) = none := by rw [← h, hlive]
    have hsame : settleExpected now s held = held := by
      unfold settleExpected
      split
      · rfl
      · rename_i x hx
        rw [if_neg]
        intro hlt
        rw [live_eq_some.2 ⟨hx, hlt⟩] at hheld
        simp at hheld
    rw [hsame]
    cases hx : L.lookup s.lease with
    | none => rwa [settleHolds_absent hx]
    | some x =>
      have hexp : x.expires ≤ now := by
        by_contra hlt
        rw [live_eq_some.2 ⟨hx, by omega⟩] at hlive
        simp at hlive
      rw [settleHolds_gone hx (.inl hexp)]
      intro m
      rw [Table.lookup_erase_eq]
      by_cases hm : m = s.lease
      · rw [if_pos hm, hm, hheld, live_none]
      · rw [if_neg hm]
        exact h m
  · obtain ⟨hx, hnow⟩ := live_eq_some.1 hlive
    unfold settleExpected
    rw [(h.lookup_iff hnow).1 hx]
    dsimp only
    rw [if_pos hnow]
    by_cases hrel : s.release = true
    · rw [settleHolds_gone hx (.inr hrel), if_pos hrel]
      exact h.erase _
    · rw [settleHolds_live hx hnow (by simpa using hrel), if_neg hrel]
      exact h.insert _ _

/-- A redelivery is seen in the table exactly when the replies promised the hold. -/
theorem Agrees.redelivery (r : Request) :
    Redelivery now r L ↔ covers now r (held r.lease) = true := by
  unfold covers
  constructor
  · rintro ⟨x, hx, hnow, hle⟩
    simp [(h.lookup_iff hnow).1 hx, hnow, hle]
  · cases hx : held r.lease with
    | none => simp
    | some x =>
      intro hc
      obtain ⟨hnow, hle⟩ : now < x.expires ∧ r.amount.units ≤ x.amount.units := by simpa using hc
      exact ⟨x, (h.lookup_iff hnow).2 hx, hnow, hle⟩

end Agreement

/-! ## One step -/

variable {L : Holds}

/-- Time only takes leases from the table whose own time has come. -/
theorem Represents.tick {σ : Server CostKey} (hr : Represents σ L) {t : Nat} (ht : σ.micros ≤ t) :
    ∃ L', Represents (σ.tick t) L' ∧ worth L' ≤ worth L ∧
      ∀ m, live (t / 1000) (L'.lookup m) = live (t / 1000) (L.lookup m) := by
  cases hr with
  | empty hp he hL =>
    exact ⟨L, .empty (by simp [Server.tick_store, hp]) (by simp [Server.tick_store, he]) hL,
      le_rfl, fun _ => rfl⟩
  | held h z s d hk =>
    by_cases hd : t / 1000 ≤ d
    · refine ⟨L, .held h z s d { hk with
        pending := by simp [Server.tick_store, hk.pending, Entry.tick, hd]
        expiry := by simp [Server.tick_store, hk.expiry, Entry.tick, hd]
        outlasts := fun m x hm => ?_ }, le_rfl, fun _ => rfl⟩
      obtain ⟨h₁, h₂⟩ := hk.outlasts m x hm
      have hnow : σ.now ≤ t / 1000 := Nat.div_le_div_right ht
      exact ⟨h₁, by rw [Server.tick_now]; omega⟩
    · refine ⟨∅, .empty (by simp [Server.tick_store, hk.pending, Entry.tick, hd])
        (by simp [Server.tick_store, hk.expiry, Entry.tick, hd]) rfl, by simp [worth],
        fun m => ?_⟩
      rw [Finmap.lookup_empty, live_none]
      cases hx : L.lookup m with
      | none => rfl
      | some x =>
        have := (hk.outlasts m x hx).1
        rw [live, Option.filter_some, if_neg (by simp; omega)]

variable {σ : Server CostKey}

/-- One call of any script, by the server's clock, keeps table and expectation in
agreement. -/
theorem Call.effect (cjson : Text → Option (List Grant)) (hr : Represents σ L)
    (hlt : worth L < Amount.capUnits) {held : Expected} (ha : Agrees σ.now L held) {call : Call}
    (hc : call.ServerTimed) :
    ∃ reply τ L', call.script cjson σ = (.ok reply, τ) ∧ τ.micros = σ.micros ∧
      Represents τ L' ∧ Agrees σ.now L' (noteCall σ.now call reply held) := by
  cases call with
  | reserve keys argv =>
    obtain ⟨reply, τ, gone, hrun, hun, hlapsed, heffect⟩ := reserveCost_effect cjson hr hlt keys hc
    have hgone := ha.eraseAll hlapsed
    rcases heffect with ⟨hre, hrep⟩ | ⟨r, a, hgrant, hnot, -, hrep, -⟩
    · refine ⟨reply, τ, _, hrun, hun.micros, hrep, ?_⟩
      cases hg : granted keys argv reply with
      | none => simpa [noteCall, hg] using hgone
      | some r =>
        have := (ha.redelivery r).1 (hre r hg)
        simpa [noteCall, hg, grantExpected, this] using hgone
    · refine ⟨reply, τ, _, hrun, hun.micros, hrep, ?_⟩
      rw [ha.redelivery] at hnot
      simpa [noteCall, hgrant, grantExpected, hnot] using hgone.insert r.lease (r.hold σ.now)
  | settle keys argv =>
    obtain ⟨reply, τ, hrun, hapart, heffect⟩ := settleCost_effect hr hlt keys argv
    rcases heffect with ⟨hfail, hrep⟩ | ⟨s, gone, hparse, hok, hlapsed, hrep⟩
    · exact ⟨reply, τ, L, hrun, hapart.micros, hrep, by simpa [noteCall, hfail] using ha⟩
    · refine ⟨reply, τ, _, hrun, hapart.micros, hrep, ?_⟩
      simpa [noteCall, hok, hparse] using (ha.eraseAll hlapsed).settle s
  | reconcile keys argv =>
    obtain ⟨reply, τ, hrun, hmicros, heffect⟩ := reconcileCost_effect hr hlt keys argv
    rcases heffect with ⟨hfail, rfl⟩ | ⟨hok, -, hrep⟩
    · exact ⟨reply, τ, L, hrun, hmicros, hr, by simpa [noteCall, hfail] using ha⟩
    · refine ⟨reply, τ, _, hrun, hmicros, hrep, ?_⟩
      unfold accountHolds
      by_cases hreq : arg argv 7 = []
      · simpa [noteCall, hreq] using ha
      · simpa [noteCall, hok, hreq] using ha.erase (arg argv 7)

/-! ## Whole runs -/

theorem heldUnits_eq (hr : Represents σ L) : heldUnits σ = worth L := by
  cases hr with
  | empty hp he hL =>
    simp [heldUnits, Server.hash?_of_none hp, Server.zset?_of_none he, hL, worth]
  | held h z t d hk =>
    simp only [heldUnits, hk.hash?, hk.zset?, hk.records.members, worth, Table.total]
    refine Finset.sum_congr rfl fun m hm => ?_
    obtain ⟨x, hx⟩ := Option.isSome_iff_exists.1 (Finmap.lookup_isSome.2 (Finmap.mem_keys.1 hm))
    rw [hk.records.amounts m (hk.records.ne_sumField hx), hx]
    simp [Hold.text, Hold.units]

/-- Keys that stand for a table are in step with each other. -/
theorem Represents.inStep (hr : Represents σ L) (hlt : worth L < Amount.capUnits) : InStep σ := by
  cases hr with
  | empty hp he hL => exact .inl ⟨hp, he⟩
  | held h z t d hk =>
    refine .inr ⟨h, z, some d, some d, hk.pending, hk.expiry, ?_, ?_, fun m hm => ?_, t, hk.sum, ?_⟩
    · rw [hk.records.members]
      exact fun hs => hk.records.sum_notMem (Finmap.mem_keys.1 hs)
    · rw [hk.records.members, hk.records.keys hk.sum]
    · rw [hk.records.members] at hm
      obtain ⟨x, hx⟩ :=
        Option.isSome_iff_exists.1 (Finmap.lookup_isSome.2 (Finmap.mem_keys.1 hm))
      exact ⟨x.amount, by rw [hk.records.amounts m (hk.records.ne_sumField hx), hx]; rfl⟩
    · rw [heldUnits_eq (.held h z t d hk), hk.total_eq hlt]

theorem Represents.inspect_ne_damaged (hr : Represents σ L) : inspect σ ≠ .damaged := by
  cases hr with
  | empty hp he hL => simp [inspect_of_empty hp he]
  | held h z t d hk => simp [hk.inspect]

/-- The pending keys stand for a table that agrees with the expectation and is below
the cap. -/
def Ledger.Sound (l : Ledger) : Prop :=
  ∃ L, Represents l.server L ∧ worth L < Amount.capUnits ∧ Agrees l.server.now L l.expected

/-- A call by the server's clock that leaves less than `10 ^ 15` held. -/
def Ledger.Bounded (cjson : Text → Option (List Grant)) (l : Ledger) (e : Event) : Prop :=
  e.call.ServerTimed ∧ heldUnits (l.step cjson e).server < Amount.capUnits

/-- Time keeps the agreement. -/
theorem Ledger.Sound.tick {l : Ledger} (hl : l.Sound) {t : Nat} (ht : l.server.micros ≤ t) :
    ∃ L, Represents (l.server.tick t) L ∧ worth L < Amount.capUnits ∧
      Agrees (l.server.tick t).now L l.expected := by
  obtain ⟨L, hr, hlt, ha⟩ := hl
  obtain ⟨L₁, hr₁, hle, hsame⟩ := hr.tick ht
  refine ⟨L₁, hr₁, hle.trans_lt hlt, fun m => ?_⟩
  rw [Server.tick_now, hsame]
  exact live_mono (Nat.div_le_div_right ht) (ha m)

/-- Every call keeps what the server holds and what the replies promised in agreement. -/
theorem Ledger.step_sound (cjson : Text → Option (List Grant)) (l : Ledger) (e : Event)
    (hl : l.Sound) (he : l.Bounded cjson e) : (l.step cjson e).Sound := by
  obtain ⟨L₁, hr₁, hlt, ha₁⟩ := hl.tick (Nat.le_add_right l.server.micros e.wait)
  obtain ⟨reply, τ, L₂, hrun, hmicros, hr₂, ha₂⟩ := Call.effect cjson hr₁ hlt ha₁ he.1
  have hstep : l.step cjson e = ⟨τ, noteCall τ.now e.call reply l.expected⟩ := by
    rw [Ledger.step, perform, hrun]
  have hnow : τ.now = (l.server.tick (l.server.micros + e.wait)).now := by
    rw [Server.now, Server.now, hmicros]
  refine ⟨L₂, hstep ▸ hr₂, ?_, ?_⟩
  · have := he.2
    rw [hstep, heldUnits_eq hr₂] at this
    exact this
  · rw [hstep]
    rw [hnow]
    exact ha₂

/-- Every run leaves the pending keys in step; no later call takes them for damaged,
and every expected hold that has not expired by then is in the table whose exact total
the call reads. -/
theorem pendingKeys_sound (cjson : Text → Option (List Grant)) (σ : Server CostKey)
    (hp : σ.store .pending = none) (he : σ.store .expiry = none) (es : List Event)
    (h : Throughout (Ledger.step cjson) (Ledger.Bounded cjson) (.start σ) es) :
    InStep (run (Ledger.step cjson) (.start σ) es).server ∧
      ∀ t, (run (Ledger.step cjson) (.start σ) es).server.micros ≤ t →
        inspect ((run (Ledger.step cjson) (.start σ) es).server.tick t) ≠ .damaged ∧
        ∀ readOnly, ∃ sum L,
          (pendingTotal (t / 1000) readOnly
            ((run (Ledger.step cjson) (.start σ) es).server.tick t)).1 = .ok sum ∧
          sum.units = worth L ∧
          ∀ m x, (run (Ledger.step cjson) (.start σ) es).expected m = some x →
            t / 1000 < x.expires → L.lookup m = some x := by
  have hstart : (Ledger.start σ).Sound :=
    ⟨∅, .empty hp he rfl, by decide, fun m => by simp [Ledger.start]⟩
  obtain ⟨L, hr, hlt, ha⟩ := run_invariant (Ledger.step_sound cjson) h hstart
  generalize run (Ledger.step cjson) (.start σ) es = l at *
  refine ⟨hr.inStep hlt, fun t ht => ?_⟩
  obtain ⟨L₁, hr₁, hle, hsame⟩ := hr.tick ht
  have hlt₁ := hle.trans_lt hlt
  have ha₁ : Agrees (t / 1000) L₁ l.expected := fun m => by
    rw [hsame]
    exact live_mono (Nat.div_le_div_right ht) (ha m)
  refine ⟨hr₁.inspect_ne_damaged, fun readOnly => ?_⟩
  obtain ⟨sum, gone, hrun, hgone, hunits⟩ : ∃ sum gone,
      (pendingTotal (t / 1000) readOnly (l.server.tick t)).1 = .ok sum ∧
        Lapsed L₁ (t / 1000) gone ∧ sum.units = worth (L₁.eraseAll gone) := by
    cases readOnly with
    | true =>
      obtain ⟨sum, gone, hrun, hgone, hunits⟩ := pendingTotal_readOnly hr₁ hlt₁
      exact ⟨sum, gone, by rw [← Server.tick_now l.server t, hrun], hgone, hunits⟩
    | false =>
      obtain ⟨sum, τ, gone, hrun, -, hgone, -, hunits⟩ := pendingTotal_represents hr₁ hlt₁
      exact ⟨sum, gone, by rw [← Server.tick_now l.server t, hrun], hgone, hunits⟩
  refine ⟨sum, _, hrun, hunits, fun m x hx hlive => ?_⟩
  exact (lookup_eraseAll_live hgone hlive).2 ((ha₁.lookup_iff hlive).2 hx)

/-! A grant without limits and its settlement, on a server that holds nothing. -/

def blankServer : Server CostKey := ⟨1700000000000000, fun _ => none⟩

def noIncreases : Text → Option (List Grant) := fun _ => none

def sampleLease : Text := List.replicate 32 'a'

/-- Reserve, and settle for less a second later. -/
def sampleRun : List Event :=
  [⟨0, .reserve 4 [[], [], ['0'], "5.25".toList, sampleLease, "60000".toList]⟩,
    ⟨1000000, .settle 2 [sampleLease, ['3'], "30000".toList]⟩]

theorem pendingKeys_sound_sampleRun :
    heldUnits (run (Ledger.step noIncreases) (.start blankServer) sampleRun).server = 3 * unit ∧
      InStep (run (Ledger.step noIncreases) (.start blankServer) sampleRun).server :=
  ⟨by decide,
    (pendingKeys_sound noIncreases blankServer rfl rfl sampleRun
      ⟨⟨by decide, by decide⟩, ⟨trivial, by decide⟩, trivial⟩).1⟩

end Olp.Cost
