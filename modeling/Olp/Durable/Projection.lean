import Olp.Cost.Join
import Olp.Durable.Lifecycle

/-!
# The projection of the ledger

`syncOwnerTx` of `debit_projection.go` reads, under the owner's lock, the version of an
owner and what its open debits may still come to, and sends both to the owner's keys in
Valkey with a snapshot of its spend.  The message may arrive late, after later ones, or
several times.

Versions tell messages apart: what is stored never goes back to an older version, and a
stored version that is the ledger's has the ledger's exposure
(`projection_converges`).
-/

namespace Olp.Durable

open Limits Valkey Cost List

variable {l l' : Ledger} {t : Tx} {d d' : Debit} {o : Id} {b : Basis} {σ : Server CostKey}

/-! ## The exposure of an owner -/

/-- What was observed of a debit on a basis. -/
def Row.observed (r : Row) : Basis → Nat
  | .cost => r.observedCost
  | .charge => r.observedCharge

/-- The rows that an open debit has for an owner on a basis. -/
def Debit.openRows (d : Debit) (o : Id) (b : Basis) : List OwnerRow :=
  if d.row.closedAt = none then d.owners.filter fun r => r.owner.id = o ∧ r.owner.basis = b else []

/-- What a debit may still cost an owner: the bound less what was observed, while open. -/
def Debit.exposure (d : Debit) (o : Id) (b : Basis) : Nat :=
  ((d.openRows o b).map fun r => r.bound - d.row.observed b).sum

/-- A debit of the owner is open that broke its bound. -/
def Debit.blocks (d : Debit) (o : Id) (b : Basis) : Bool :=
  d.openRows o b ≠ [] ∧ (d.row.boundViolation ∨ d.row.state = .conflict)

def exposure (l : Ledger) (o : Id) (b : Basis) : Nat := l.debits.total fun _ d => d.exposure o b

/-- Whether any open debit of the owner blocks it. -/
def blocked (l : Ledger) (o : Id) (b : Basis) : Bool :=
  ∃ id ∈ l.debits.keys, (l.debits.lookup id).any (·.blocks o b) = true

/-- Whether the owner has open debits at all. -/
def hasOpen (l : Ledger) (o : Id) (b : Basis) : Bool :=
  ∃ id ∈ l.debits.keys, (l.debits.lookup id).any (fun d => d.openRows o b ≠ []) = true

/-- A `numeric(28,12)` as text. -/
def numericText (units : Nat) : Text := Text.ofNat (units / unit) ++ '.' :: pad (units % unit)

/-- `syncOwnerTx`, the part that reads the ledger. -/
def project (l : Ledger) (o : Id) (b : Basis) : DebitProjection where
  version := (l.versions o).1
  amount := if hasOpen l o b then numericText (exposure l o b) else ['0']
  blocked := blocked l o b

theorem decimal?_numericText (units : Nat) :
    decimal? (numericText units) = some ((units : ℚ) / 10 ^ scale) := by
  have hlo : units % unit < unit := Nat.mod_lt _ (by decide)
  have hne : pad (units % unit) ≠ [] := fun e => by
    have := length_pad hlo
    rw [e] at this
    cases this
  have hjoin : numericText units = join (Text.ofNat (units / unit)) (pad (units % unit)) := by
    rw [join, if_neg hne, numericText]
  rw [decimal?, hjoin, plainDecimal_join (Text.isDigits_ofNat _) (Text.ofNat_ne_nil _)
    (isDigits_pad _), Option.map_some, Text.rat, length_pad hlo, value_pad, Text.value_ofNat]
  have hsplit : ((units / unit : ℕ) : ℚ) * 10 ^ scale + ((units % unit : ℕ) : ℚ) = units := by
    have := Nat.div_add_mod' units unit
    exact_mod_cast this
  rw [← hsplit]
  congr 1
  field_simp

theorem exposure_eq_zero (h : hasOpen l o b = false) : exposure l o b = 0 := by
  simp only [hasOpen, decide_eq_false_iff_not, not_exists, not_and] at h
  refine Finset.sum_eq_zero fun id hid => ?_
  cases hd : l.debits.lookup id with
  | none => rfl
  | some d =>
    have := h id hid
    rw [hd] at this
    have hnil : d.openRows o b = [] := by simpa using this
    simp [Debit.exposure, hnil]

theorem decimal?_project (l : Ledger) (o : Id) (b : Basis) :
    decimal? (project l o b).amount = some ((exposure l o b : ℚ) / 10 ^ scale) := by
  unfold project
  split
  · exact decimal?_numericText _
  · rename_i h
    rw [exposure_eq_zero (by simpa using h)]
    simp [decimal?_digits (t := ['0']) (by simp [Text.isDigits_cons]) (by simp),
      show Text.value ['0'] = 0 by decide]

theorem blocked_iff :
    blocked l o b = true ↔ ∃ id d, l.debits.lookup id = some d ∧ d.blocks o b = true := by
  simp only [blocked, decide_eq_true_eq, Option.any_eq_true]
  constructor
  · rintro ⟨id, -, d, hd, hb⟩
    exact ⟨id, d, hd, hb⟩
  · rintro ⟨id, d, hd, hb⟩
    exact ⟨id, Finmap.mem_keys.mpr (Finmap.mem_of_lookup_eq_some hd), d, hd, hb⟩

/-! ## Versions tell exposures apart -/

theorem Debit.openRows_eq_nil (h : o ∉ d.ownerIds) : d.openRows o b = [] := by
  unfold Debit.openRows
  split
  · refine filter_eq_nil_iff.mpr fun r hr => ?_
    have : r.owner.id ≠ o := fun e => h (mem_map.mpr ⟨r, hr, e⟩)
    simp [this]
  · rfl

theorem Bumped.not_mem (h : Bumped l l' d) (hv : l'.versions o = l.versions o) :
    o ∉ d.ownerIds := fun ho => (h o ho).ne' hv

theorem Move.same_exposure (h : Move t (Bumped l l' d) d d') (hi : d.SameIntent d')
    (hv : l'.versions o = l.versions o) :
    d'.exposure o b = d.exposure o b ∧ d'.blocks o b = d.blocks o b := by
  have hnone : Bumped l l' d → d'.exposure o b = d.exposure o b ∧
      d'.blocks o b = d.blocks o b := fun hb => by
    have ho := hb.not_mem hv
    have ho' : o ∉ d'.ownerIds := by rwa [Debit.ownerIds, hi.2.2]
    simp [Debit.exposure, Debit.blocks, Debit.openRows_eq_nil ho, Debit.openRows_eq_nil ho']
  -- a change of state alone, neither to nor from a conflict
  have hstate : ∀ s at', d'.row = { d.row with state := s, dispatchedAt := at' } →
      s ≠ .conflict → d.row.state ≠ .conflict →
      d'.exposure o b = d.exposure o b ∧ d'.blocks o b = d.blocks o b := by
    intro s at' hrow hs hs'
    have hrows : d'.openRows o b = d.openRows o b := by
      rw [Debit.openRows, Debit.openRows, hrow, hi.2.2]
    constructor
    · rw [Debit.exposure, Debit.exposure, hrows, hrow]
      cases b <;> rfl
    · rw [Debit.blocks, Debit.blocks, hrows, hrow]
      simp [hs, hs']
  cases h with
  | admitDebit _ hs hrow | dispatch _ _ hs hrow =>
    exact hstate _ _ hrow (by decide) (by rw [hs]; decide)
  | unknown hs hrow =>
    refine hstate _ _ hrow (by decide) fun e => ?_
    rw [e] at hs
    cases hs
  | record _ _ _ _ _ _ _ _ hb | notAccepted _ _ _ _ _ hb | release _ _ _ _ hb => exact hnone hb

/-- What a debit that may be absent means to an owner. -/
def view (o : Id) (b : Basis) (d : Option Debit) : Nat × Bool :=
  d.elim (0, false) fun d => (d.exposure o b, d.blocks o b)

theorem Step.same_view (h : Step t l l') (hv : l'.versions o = l.versions o) (id : Id) :
    view o b (l'.debits.lookup id) = view o b (l.debits.lookup id) := by
  cases h.change id with
  | same hl => rw [hl]
  | opened d hnone hd _ _ hb =>
    rw [hnone, hd]
    simp [view, Debit.exposure, Debit.blocks, Debit.openRows_eq_nil (hb.not_mem hv)]
  | moved d d' hd hd' hi hm =>
    obtain ⟨he, hb⟩ := hm.same_exposure (b := b) hi hv
    rw [hd, hd']
    simp [view, he, hb]

theorem Step.same_exposure (h : Step t l l') (hv : l'.versions o = l.versions o) :
    exposure l' o b = exposure l o b ∧ blocked l' o b = blocked l o b := by
  have hview := h.same_view (b := b) hv
  constructor
  · refine Table.total_eq_of_elim _ fun id => ?_
    have hfst : ∀ x : Option Debit, (x.elim 0 fun d => d.exposure o b) = (view o b x).1 := by
      rintro (_ | d) <;> rfl
    rw [hfst, hfst, hview]
  · have hany : ∀ x id, (∃ d, (Ledger.debits x).lookup id = some d ∧ d.blocks o b = true) ↔
        (view o b (x.debits.lookup id)).2 = true := by
      intro x id
      cases hx : x.debits.lookup id <;> simp [view]
    rw [Bool.eq_iff_iff, blocked_iff, blocked_iff]
    refine exists_congr fun id => ?_
    rw [hany, hany, hview]

/-! ## What is stored -/

/-- A field of the stored projection. -/
def storedField (σ : Server CostKey) (field : Text) : Option Text :=
  (σ.hash? .durable).toOption.bind (·.lookup field)

/-- The stored version, below every number when there is none. -/
def storedVersion (σ : Server CostKey) : WithBot ℕ :=
  (storedField σ versionField).bind fun text => parseSafeUnsignedInteger (some text)

def storedAmount (σ : Server CostKey) : Option ℚ := (storedField σ amountField).bind decimal?

def storedBlocked (σ : Server CostKey) : Option Text := storedField σ blockedField

def flag (blocked : Bool) : Text := if blocked then ['1'] else ['0']

variable {τ : Server CostKey}

theorem storedField_congr (h : τ.store .durable = σ.store .durable) :
    storedField τ = storedField σ := by
  funext field
  rw [storedField, storedField, Server.hash?_congr h]

theorem call_projection {s : CostSnapshot} {argv : List Text} (h : s.call = some (6, argv)) :
    ∃ p, s.durable = some p ∧ s.balanceArgs.length = 15 ∧
      argv = s.balanceArgs ++ [ofInt p.version, p.amount, flag p.blocked] := by
  unfold CostSnapshot.call at h
  split at h
  · split at h
    · simp at h
    · rename_i p hp
      obtain ⟨args, happend, hargs⟩ := Option.map_eq_some_iff.mp h
      unfold appendDebitProjection at happend
      split at happend
      · simp at happend
      · rename_i hok
        push Not at hok
        refine ⟨p, hp, hok.2.2, ?_⟩
        rw [← (Prod.mk.inj hargs).2, ← Option.some.inj happend]
        rfl
  · simp at h

variable {q : Projection}

theorem parseProjection_sent {args : List Text} {p : DebitProjection} (hlen : args.length = 15)
    (h : parseProjection (args ++ [ofInt p.version, p.amount, flag p.blocked]) = some q) :
    p.version = q.version ∧ parseSafeUnsignedInteger (some q.versionText) = some q.version ∧
      decimal? q.amount = decimal? p.amount ∧ q.blocked = flag p.blocked := by
  have harg : ∀ i, arg (args ++ [ofInt p.version, p.amount, flag p.blocked]) (15 + i + 1) =
      [ofInt p.version, p.amount, flag p.blocked].getD i [] := fun i => by
    rw [arg, getD_eq_getElem?_getD, getElem?_append_right (by omega),
      getD_eq_getElem?_getD, show 15 + i + 1 - 1 - args.length = i by omega]
  have h₁ := harg 0
  have h₂ := harg 1
  have h₃ := harg 2
  unfold parseProjection number at h
  rw [h₁, h₂, h₃] at h
  split at h
  · rename_i version amount hversion hamount
    split at h
    · simp at h
    · cases h
      exact ⟨(parseSafeUnsignedInteger_ofInt.mp hversion).1, hversion,
        decimal?_of_normalizeDecimal hamount, rfl⟩
  · simp at h

theorem of_not_stale (h : staleProjection σ q = false) :
    storedVersion σ ≤ (q.version : WithBot ℕ) ∧ (storedVersion σ = (q.version : WithBot ℕ) →
      storedField σ amountField = some q.amount ∧ storedField σ blockedField = some q.blocked) := by
  unfold staleProjection at h
  split at h
  · simp at h
  · rename_i fields hfields
    have hfield : ∀ f, storedField σ f = fields.lookup f := fun f => by
      rw [storedField, hfields]
      rfl
    rw [storedVersion, hfield, hfield, hfield]
    split at h
    · rename_i hnone
      rw [hnone]
      exact ⟨bot_le, nofun⟩
    · rename_i stored hstored
      rw [hstored, Option.bind_some]
      split at h
      · simp at h
      · rename_i version hversion
        rw [hversion]
        simp only [decide_eq_false_iff_not, not_or, not_and, not_lt, not_ne_iff] at h
        exact ⟨WithBot.coe_le_coe.mpr h.1, fun e => h.2 (WithBot.coe_injective e)⟩

theorem stored_exposureAfter (h : τ.store .durable = exposureAfter σ (some q)) :
    storedField τ versionField = some q.versionText ∧ storedField τ amountField = some q.amount ∧
      storedField τ blockedField = some q.blocked := by
  have hfield : ∀ f, storedField τ f = (((σ.hash? .durable).toOption.getD ∅).setAll
        [(versionField, q.versionText), (amountField, q.amount),
          (blockedField, q.blocked)]).lookup f :=
    fun f => by
      rw [storedField, Server.hash?_of_hash h]
      rfl
  simp only [hfield, Hash.setAll, foldl_cons, foldl_nil, Table.lookup_insert_eq]
  refine ⟨?_, ?_, ?_⟩
  · rw [if_neg (by decide), if_neg (by decide), if_pos trivial]
  · rw [if_neg (by decide), if_pos trivial]
  · rw [if_pos trivial]

def Kept (σ : Server CostKey) : Prop := ∀ e, σ.store .durable = some e → e.deadline = none

theorem Kept.tick (h : Kept σ) (micros : Nat) :
    (σ.tick micros).store .durable = σ.store .durable := by
  rw [Server.tick_store]
  cases he : σ.store .durable with
  | none => rfl
  | some e => rw [Option.bind_some, Entry.tick, h e he]

/-- A delivery leaves what is stored, or installs a projection that is newer or the same. -/
theorem deliver_durable (hk : Kept σ) (m : Delivery) :
    (deliver σ m).store .durable = σ.store .durable ∨
      Kept (deliver σ m) ∧ ∃ (p : DebitProjection) (q : ℕ),
        m.snapshot.durable = some p ∧ p.version = q ∧
        storedVersion σ ≤ (q : WithBot ℕ) ∧ storedVersion (deliver σ m) = (q : WithBot ℕ) ∧
        storedAmount (deliver σ m) = decimal? p.amount ∧
        storedBlocked (deliver σ m) = some (flag p.blocked) ∧
        (storedVersion σ = (q : WithBot ℕ) → storedAmount σ = storedAmount (deliver σ m) ∧
          storedBlocked σ = storedBlocked (deliver σ m)) := by
  have htick : (m.arrival σ).store .durable = σ.store .durable := hk.tick _
  rcases deliver_cases σ m with ⟨-, h⟩ | ⟨-, keys, argv, parsed, i, e, hcall, hplan, h⟩
  · rw [h]
    exact .inl htick
  · obtain ⟨reply, τ, hrun, -, -, -, hstore, -⟩ := reconcileCost_apply hplan
    have hτ : deliver σ m = τ := by rw [h, hrun]
    rw [hτ]
    cases e with
    | none => exact .inl (hstore.trans htick)
    | some q =>
      obtain ⟨-, hproj, -⟩ := planReconcile_eq_ok hplan
      obtain ⟨rfl, hparse, hstale, -⟩ := projectionArg_eq_some hproj
      obtain ⟨p, hp, hlen, rfl⟩ := call_projection hcall
      obtain ⟨hversion, htext, hamount, hflag⟩ := parseProjection_sent hlen hparse
      obtain ⟨hle, heq⟩ := of_not_stale hstale
      obtain ⟨hv, ha, hb⟩ := stored_exposureAfter hstore
      have hsame := storedField_congr htick
      rw [storedVersion, hsame, ← storedVersion] at hle heq
      refine .inr ⟨fun x hx => ?_, p, q.version, hp, hversion, hle, ?_, ?_, ?_, fun hq => ?_⟩
      · rw [hstore] at hx
        rw [← Option.some.inj hx]
      · rw [storedVersion, hv, Option.bind_some, htext]
        rfl
      · rw [storedAmount, ha, Option.bind_some, hamount]
      · rw [storedBlocked, hb, hflag]
      · obtain ⟨ha', hb'⟩ := heq hq
        rw [storedAmount, storedAmount, storedBlocked, storedBlocked, ha', hb', ha, hb]
        exact ⟨rfl, rfl⟩

/-! ## The ledger and its projection -/

/-- The ledger, the keys of one owner on one basis, and every message sent so far. -/
structure World where
  ledger : Ledger
  server : Server CostKey
  sent : List CostSnapshot

/-- What happens: a transaction; a projection read under the owner's lock and sent with
the spend the store holds; one of the messages sent so far arriving, once more or for the
first time; and a snapshot of the spend without a projection. -/
inductive Event
  | tx (t : Tx)
  | send (spend : CostSnapshot)
  | install (wait : Nat) (message : Nat)
  | snapshot (wait : Nat) (s : CostSnapshot)

/-- One event. -/
def World.step (o : Id) (b : Basis) (w : World) : Event → World
  | .tx t => { w with ledger := w.ledger.step t }
  | .send spend =>
    { w with sent := w.sent ++ [{ spend with durable := some (project w.ledger o b) }] }
  | .install wait message =>
    match w.sent[message]? with
    | none => w
    | some s => { w with server := deliver w.server ⟨wait, s⟩ }
  | .snapshot wait s => { w with server := deliver w.server ⟨wait, { s with durable := none }⟩ }

def World.start (σ : Server CostKey) : World := ⟨.empty, σ, []⟩

/-- A version the owner had, with what goes with it if the owner has it still. -/
structure Consistent (l : Ledger) (o : Id) (b : Basis) (version : ℕ) (amount : Option ℚ)
    (flagged : Option Text) : Prop where
  le : version ≤ (l.versions o).1
  amount : version = (l.versions o).1 → amount = some ((exposure l o b : ℚ) / 10 ^ scale)
  flagged : version = (l.versions o).1 → flagged = some (flag (blocked l o b))

theorem Consistent.exec {version : ℕ} {amount : Option ℚ} {flagged : Option Text}
    (h : Consistent l o b version amount flagged) (hstep : Step t l l') :
    Consistent l' o b version amount flagged := by
  have hle : (l.versions o).1 ≤ (l'.versions o).1 := hstep.versions o
  have hsame : version = (l'.versions o).1 → version = (l.versions o).1 ∧
      exposure l' o b = exposure l o b ∧ blocked l' o b = blocked l o b := fun hv => by
    have heq : (l'.versions o).1 = (l.versions o).1 := le_antisymm (hv ▸ h.le) hle
    exact ⟨hv.trans heq, hstep.same_exposure (Subtype.ext heq)⟩
  refine ⟨h.le.trans hle, fun hv => ?_, fun hv => ?_⟩
  · obtain ⟨hv, he, -⟩ := hsame hv
    rw [h.amount hv, he]
  · obtain ⟨hv, -, hb⟩ := hsame hv
    rw [h.flagged hv, hb]

/-- Every message sent and what is stored are consistent with the ledger. -/
structure World.Sound (o : Id) (b : Basis) (w : World) : Prop where
  kept : Kept w.server
  sent : ∀ s ∈ w.sent, ∀ p, s.durable = some p → ∀ version : ℕ, p.version = version →
    Consistent w.ledger o b version (decimal? p.amount) (some (flag p.blocked))
  stored : ∀ version : ℕ, storedVersion w.server = (version : WithBot ℕ) →
    Consistent w.ledger o b version (storedAmount w.server) (storedBlocked w.server)

variable {w : World}

theorem World.Sound.tx (h : w.Sound o b) (t : Tx) : (w.step o b (.tx t)).Sound o b := by
  rcases w.ledger.step_eq t with ht | ht
  · have : w.step o b (.tx t) = w := by rw [World.step, ht]
    rwa [this]
  · have hstep := exec_step ht
    exact ⟨h.kept, fun s hs p hp version hv => (h.sent s hs p hp version hv).exec hstep,
      fun version hv => (h.stored version hv).exec hstep⟩

theorem consistent_project (l : Ledger) (o : Id) (b : Basis) :
    Consistent l o b (l.versions o).1 (decimal? (project l o b).amount)
      (some (flag (project l o b).blocked)) where
  le := le_rfl
  amount _ := decimal?_project l o b
  flagged _ := rfl

theorem World.Sound.send (h : w.Sound o b) (spend : CostSnapshot) :
    (w.step o b (.send spend)).Sound o b := by
  refine ⟨h.kept, fun s hs p hp version hv => ?_, h.stored⟩
  rcases mem_append.mp hs with hs | hs
  · exact h.sent s hs p hp version hv
  · rw [mem_singleton.mp hs] at hp
    cases hp
    obtain rfl : (w.ledger.versions o).1 = version := by
      have : ((w.ledger.versions o).1 : ℤ) = version := hv
      exact_mod_cast this
    exact consistent_project w.ledger o b

theorem World.Sound.deliver (h : w.Sound o b) (m : Delivery)
    (hm : ∀ p, m.snapshot.durable = some p → ∀ version : ℕ, p.version = version →
      Consistent w.ledger o b version (decimal? p.amount) (some (flag p.blocked))) :
    World.Sound o b { w with server := Cost.deliver w.server m } := by
  rcases deliver_durable h.kept m with hsame | ⟨hkept, p, q, hp, hv, -, hversion, ha, hb, -⟩
  · have hfield := storedField_congr hsame
    refine ⟨fun e he => h.kept e (hsame ▸ he), h.sent, fun version hv => ?_⟩
    rw [storedVersion, hfield, ← storedVersion] at hv
    rw [storedAmount, storedBlocked, hfield, ← storedAmount, ← storedBlocked]
    exact h.stored version hv
  · refine ⟨hkept, h.sent, fun version hv' => ?_⟩
    obtain rfl : q = version := WithBot.coe_injective (hversion.symm.trans hv')
    rw [ha, hb]
    exact hm p hp q hv

/-- No event, in whatever order it comes, makes the projection unsound. -/
theorem World.Sound.step (h : w.Sound o b) (e : Event) : (w.step o b e).Sound o b := by
  cases e with
  | tx t => exact h.tx t
  | send spend => exact h.send spend
  | install wait message =>
    rw [World.step]
    split
    · exact h
    · rename_i s hs
      exact h.deliver ⟨wait, s⟩ (h.sent s (mem_of_getElem? hs))
  | snapshot wait s => exact h.deliver ⟨wait, { s with durable := none }⟩ fun p hp => by cases hp

theorem World.sound_start (hσ : σ.store .durable = none) (o : Id) (b : Basis) :
    (World.start σ).Sound o b where
  kept e he := by
    rw [World.start, hσ] at he
    cases he
  sent s hs := by cases hs
  stored version hv := by
    rw [World.start, storedVersion, storedField, Server.hash?_of_none hσ] at hv
    cases hv

/-- The stored version never goes back. -/
theorem storedVersion_step (h : w.Sound o b) (e : Event) :
    storedVersion w.server ≤ storedVersion (w.step o b e).server := by
  have hdeliver : ∀ m, storedVersion w.server ≤ storedVersion (Cost.deliver w.server m) := by
    intro m
    rcases deliver_durable h.kept m with hsame | ⟨-, p, q, -, -, hle, hversion, -⟩
    · rw [storedVersion, storedVersion, storedField_congr hsame]
      exact le_rfl
    · rw [hversion]
      exact hle
  cases e with
  | tx t => exact le_rfl
  | send spend => exact le_rfl
  | install wait message =>
    rw [World.step]
    split
    · exact le_rfl
    · exact hdeliver _
  | snapshot wait s => exact hdeliver _

/-- The world after a list of events. -/
def World.after (o : Id) (b : Basis) (σ : Server CostKey) (es : List Event) : World :=
  run (World.step o b) (.start σ) es

theorem World.after_append (o : Id) (b : Basis) (σ : Server CostKey) (es fs : List Event) :
    World.after o b σ (es ++ fs) = run (World.step o b) (World.after o b σ es) fs :=
  run_append ..

/-- From a server without the durable key, every run is sound. -/
theorem World.sound_after (hσ : σ.store .durable = none) (o : Id) (b : Basis) (es : List Event) :
    (World.after o b σ es).Sound o b :=
  run_induction (fun _ e h => h.step e) es (World.sound_start hσ o b)

/-- The projection under every interleaving of transactions and of messages that come
late, out of order or repeatedly: the stored version never goes back, a message older than
what is stored changes nothing, and at the ledger's version what is stored is the sum over
the owner's open debits of what each bound leaves. -/
theorem projection_converges (o : Id) (b : Basis) (σ : Server CostKey)
    (hσ : σ.store .durable = none) (es : List Event) :
    (∀ fs, storedVersion (World.after o b σ es).server ≤
      storedVersion (World.after o b σ (es ++ fs)).server) ∧
    (∀ wait message s p, (World.after o b σ es).sent[message]? = some s → s.durable = some p →
      ∀ stored : ℕ, storedVersion (World.after o b σ es).server = (stored : WithBot ℕ) →
        p.version < (stored : ℤ) →
          storedAmount (World.after o b σ (es ++ [.install wait message])).server =
              storedAmount (World.after o b σ es).server ∧
            storedBlocked (World.after o b σ (es ++ [.install wait message])).server =
              storedBlocked (World.after o b σ es).server) ∧
    (storedVersion (World.after o b σ es).server =
        (((World.after o b σ es).ledger.versions o).1 : WithBot ℕ) →
      storedAmount (World.after o b σ es).server =
        some ((exposure (World.after o b σ es).ledger o b : ℚ) / 10 ^ scale)) := by
  have hsound := World.sound_after hσ o b es
  refine ⟨fun fs => ?_, fun wait message s p hs hp stored hstored hlt => ?_, fun hv => ?_⟩
  · rw [World.after_append]
    refine (run_induction (P := fun w : World => w.Sound o b ∧
      storedVersion (World.after o b σ es).server ≤ storedVersion w.server)
      ?_ fs ⟨hsound, le_rfl⟩).2
    rintro w e ⟨hw, hle⟩
    exact ⟨hw.step e, hle.trans (storedVersion_step hw e)⟩
  · have hafter : (World.after o b σ (es ++ [.install wait message])).server =
        deliver (World.after o b σ es).server ⟨wait, s⟩ := by
      rw [World.after_append, run_cons, run_nil, World.step, hs]
    rw [hafter]
    rcases deliver_durable hsound.kept ⟨wait, s⟩ with hsame | ⟨-, p', q, hp', hq, hle, -⟩
    · have hfield := storedField_congr hsame
      rw [storedAmount, storedAmount, storedBlocked, storedBlocked, hfield]
      exact ⟨rfl, rfl⟩
    · -- a projection that is installed is not older than what is stored
      cases hp'.symm.trans hp
      rw [hstored] at hle
      have : stored ≤ q := WithBot.coe_le_coe.mp hle
      omega
  · exact (hsound.stored _ hv).amount rfl

/-- A debit is prepared, projected, and dispatched while the message is on its way; the
message then comes twice. -/
def sampleEvents : List Event :=
  [.tx (.prepare 0 true sampleIntent 3 [⟨7, .key, .charge⟩]), .send (daySnapshot ['5'] true),
    .tx (.admitDebit 1 1 3 [(7, .charge)] true), .tx (.markDispatched 2 1 3 true), .install 1000 0,
    .install 0 0]

theorem projection_converges_sampleEvents :
    exposure (World.after 7 .charge noonServer sampleEvents).ledger 7 .charge = 10 ∧
      storedAmount (World.after 7 .charge noonServer sampleEvents).server =
        some (10 / 10 ^ scale) := by
  have hexposure :
      exposure (World.after 7 .charge noonServer sampleEvents).ledger 7 .charge = 10 := by
    decide
  refine ⟨hexposure, ?_⟩
  obtain ⟨-, -, hamount⟩ := projection_converges 7 .charge noonServer rfl sampleEvents
  rw [hamount (by decide), hexposure]
  rfl

end Olp.Durable
