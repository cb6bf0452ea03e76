import Olp.Table
import Olp.Valkey.ZSet

/-!
# A key-value server that runs scripts

The part of a Valkey server that a script sees: a clock, and a store in which a
key holds a string, a hash or a sorted set, with or without a deadline after
which it is gone.  A script is a state-passing computation over the server that
can fail with a fault; what it wrote before the fault stays written.

A script runs against one instant: the server's clock is read once for it, and a
key whose deadline has passed is gone before it starts (`Server.tick`).

Hashes and sorted sets that lose their last element are removed with their key,
and a key that is written keeps the deadline it had.
-/

namespace Olp.Valkey

abbrev Hash := Table Text Text

/-- What a key can hold. -/
inductive Value
  | string (text : Text)
  | hash (fields : Hash)
  | zset (members : ZSet)

/-- A key's value and the last millisecond at which it is still there. -/
structure Entry where
  value : Value
  deadline : Option Nat

/-- A clock in microseconds and a store. -/
structure Server (κ : Type) where
  micros : Nat
  store : κ → Option Entry

/-- Why a command can fail: its key holds another type. -/
inductive Fault
  | wrongType
deriving DecidableEq, Repr

/-- A key's entry at an instant: an entry past its deadline is gone. -/
def Entry.tick (e : Entry) (now : Nat) : Option Entry :=
  match e.deadline with
  | none => some e
  | some d => if now ≤ d then some e else none

namespace Server

variable {κ : Type}

def now (σ : Server κ) : Nat := σ.micros / 1000

/-- The server once its clock reads `micros`. -/
def tick (σ : Server κ) (micros : Nat) : Server κ where
  micros := micros
  store k := (σ.store k).bind (·.tick (micros / 1000))

/-- The hash at a key, empty when the key is absent. -/
def hash? (σ : Server κ) (k : κ) : Except Fault Hash :=
  match σ.store k with
  | none => .ok ∅
  | some ⟨.hash h, _⟩ => .ok h
  | some _ => .error .wrongType

/-- The sorted set at a key, empty when the key is absent. -/
def zset? (σ : Server κ) (k : κ) : Except Fault ZSet :=
  match σ.store k with
  | none => .ok .empty
  | some ⟨.zset z, _⟩ => .ok z
  | some _ => .error .wrongType

/-- `PTTL`: the time left, `-1` without a deadline and `-2` without a key. -/
def pttl (σ : Server κ) (k : κ) : Int :=
  match σ.store k with
  | none => -2
  | some ⟨_, none⟩ => -1
  | some ⟨_, some d⟩ => (d : Int) - σ.now

section Writes

variable [DecidableEq κ]

/-- Replace what a key holds altogether. -/
def set (σ : Server κ) (k : κ) (e : Option Entry) : Server κ :=
  { σ with store := Function.update σ.store k e }

/-- `DEL`. -/
def del (σ : Server κ) (k : κ) : Server κ := σ.set k none

/-- Write a value and keep the key's deadline. -/
def put (σ : Server κ) (k : κ) (v : Value) : Server κ :=
  σ.set k (some ⟨v, (σ.store k).bind (·.deadline)⟩)

/-- Write a hash; an empty one takes its key with it. -/
def putHash (σ : Server κ) (k : κ) (h : Hash) : Server κ :=
  if h.keys = ∅ then σ.del k else σ.put k (.hash h)

/-- Write a sorted set; an empty one takes its key with it. -/
def putZset (σ : Server κ) (k : κ) (z : ZSet) : Server κ :=
  if z.card = 0 then σ.del k else σ.put k (.zset z)

/-- `PEXPIRE`: move the deadline of a key that exists; a time to live of nothing
removes it. -/
def pexpire (σ : Server κ) (k : κ) (ttl : Nat) : Server κ :=
  match σ.store k with
  | none => σ
  | some e => if ttl = 0 then σ.del k else σ.set k (some { e with deadline := some (σ.now + ttl) })

/-- `PERSIST`: drop the deadline of a key that exists. -/
def persist (σ : Server κ) (k : κ) : Server κ :=
  match σ.store k with
  | none => σ
  | some e => σ.set k (some { e with deadline := none })

end Writes

/-! ## Small facts about reads and writes -/

@[simp] theorem tick_now (σ : Server κ) (t : Nat) : (σ.tick t).now = t / 1000 := rfl

theorem tick_store (σ : Server κ) (t : Nat) (k : κ) :
    (σ.tick t).store k = (σ.store k).bind (·.tick (t / 1000)) := rfl

theorem tick_store_cases (σ : Server κ) (t : Nat) (k : κ) :
    (σ.tick t).store k = none ∨ (σ.tick t).store k = σ.store k := by
  rw [tick_store]
  cases σ.store k with
  | none => exact .inl rfl
  | some e =>
    rw [Option.bind_some, Entry.tick]
    split
    · exact .inr rfl
    · split
      · exact .inr rfl
      · exact .inl rfl

variable {k : κ} {σ : Server κ}

theorem hash?_of_none (h : σ.store k = none) : σ.hash? k = .ok ∅ := by
  simp [hash?, h]

variable {d : Option Nat}

theorem hash?_of_hash {fields : Hash} (h : σ.store k = some ⟨.hash fields, d⟩) :
    σ.hash? k = .ok fields := by
  simp [hash?, h]

theorem zset?_of_none (h : σ.store k = none) : σ.zset? k = .ok .empty := by
  simp [zset?, h]

theorem zset?_of_zset {z : ZSet} (h : σ.store k = some ⟨.zset z, d⟩) : σ.zset? k = .ok z := by
  simp [zset?, h]

variable {τ : Server κ}

theorem hash?_congr (h : τ.store k = σ.store k) : τ.hash? k = σ.hash? k := by
  simp [hash?, h]

theorem zset?_congr (h : τ.store k = σ.store k) : τ.zset? k = σ.zset? k := by
  simp [zset?, h]

theorem hash?_congr_value (h : (τ.store k).map Entry.value = (σ.store k).map Entry.value) :
    τ.hash? k = σ.hash? k := by
  unfold hash?
  cases hσ : σ.store k <;> cases hτ : τ.store k <;> simp only [hσ, hτ, Option.map_none,
    Option.map_some, reduceCtorEq, Option.some.injEq] at h
  · rfl
  · rename_i e f
    obtain ⟨v, d⟩ := e
    obtain ⟨w, d'⟩ := f
    obtain rfl : w = v := h
    cases w <;> rfl

variable [DecidableEq κ]

@[simp] theorem set_store_self (σ : Server κ) (k : κ) (e : Option Entry) :
    (σ.set k e).store k = e := by simp [set]

variable {j : κ}

section

variable (σ)

@[simp] theorem set_store_ne (e : Option Entry) (h : j ≠ k) :
    (σ.set k e).store j = σ.store j := by simp [set, h]

@[simp] theorem del_micros (k : κ) : (σ.del k).micros = σ.micros := rfl

@[simp] theorem del_store_self (k : κ) : (σ.del k).store k = none := by
  simp [del]

@[simp] theorem del_store_ne (h : j ≠ k) : (σ.del k).store j = σ.store j := by simp [del, h]

@[simp] theorem put_micros (k : κ) (v : Value) : (σ.put k v).micros = σ.micros := rfl

@[simp] theorem put_now (k : κ) (v : Value) : (σ.put k v).now = σ.now := rfl

@[simp] theorem put_store_self (k : κ) (v : Value) :
    (σ.put k v).store k = some ⟨v, (σ.store k).bind (·.deadline)⟩ := by simp [put]

@[simp] theorem put_store_ne (v : Value) (h : j ≠ k) :
    (σ.put k v).store j = σ.store j := by simp [put, h]

@[simp] theorem putHash_micros (k : κ) (h : Hash) : (σ.putHash k h).micros = σ.micros := by
  unfold putHash
  split <;> rfl

@[simp] theorem putHash_store_ne (h : Hash) (hne : j ≠ k) :
    (σ.putHash k h).store j = σ.store j := by
  unfold putHash
  split <;> simp [hne]

end

theorem putHash_of_mem {h : Hash} {f : Text} (hf : f ∈ h) : σ.putHash k h = σ.put k (.hash h) := by
  have : h.keys ≠ ∅ := Finset.ne_empty_of_mem (Finmap.mem_keys.2 hf)
  simp [putHash, this]

@[simp] theorem putZset_micros (σ : Server κ) (k : κ) (z : ZSet) :
    (σ.putZset k z).micros = σ.micros := by
  unfold putZset
  split <;> rfl

@[simp] theorem putZset_store_ne (σ : Server κ) (z : ZSet) (hne : j ≠ k) :
    (σ.putZset k z).store j = σ.store j := by
  unfold putZset
  split <;> simp [hne]

theorem putZset_of_card {z : ZSet} (h : z.card ≠ 0) :
    σ.putZset k z = σ.put k (.zset z) := by simp [putZset, h]

section

variable (σ)

@[simp] theorem hash?_putHash (k : κ) (h : Hash) : (σ.putHash k h).hash? k = .ok h := by
  unfold putHash
  split
  · next hempty =>
      rw [Table.eq_empty_of_keys hempty]
      exact hash?_of_none (del_store_self σ k)
  · exact hash?_of_hash (put_store_self σ k _)

@[simp] theorem zset?_putZset (k : κ) (z : ZSet) : (σ.putZset k z).zset? k = .ok z := by
  unfold putZset
  split
  · next hempty =>
      rw [ZSet.eq_empty_of_card hempty]
      exact zset?_of_none (del_store_self σ k)
  · exact zset?_of_zset (put_store_self σ k _)

@[simp] theorem pexpire_micros (k : κ) (ttl : Nat) : (σ.pexpire k ttl).micros = σ.micros := by
  unfold pexpire
  split
  · rfl
  · split <;> rfl

@[simp] theorem pexpire_now (k : κ) (ttl : Nat) : (σ.pexpire k ttl).now = σ.now := by simp [now]

@[simp] theorem pexpire_store_ne (ttl : Nat) (hne : j ≠ k) :
    (σ.pexpire k ttl).store j = σ.store j := by
  unfold pexpire
  split
  · rfl
  · split <;> simp [hne]

end

theorem pexpire_store_self {v : Value} {ttl : Nat} (h : σ.store k = some ⟨v, d⟩) (hpos : ttl ≠ 0) :
    (σ.pexpire k ttl).store k = some ⟨v, some (σ.now + ttl)⟩ := by
  simp [pexpire, h, hpos]

@[simp] theorem persist_micros (σ : Server κ) (k : κ) : (σ.persist k).micros = σ.micros := by
  unfold persist
  split <;> rfl

@[simp] theorem persist_store_ne (σ : Server κ) (hne : j ≠ k) :
    (σ.persist k).store j = σ.store j := by
  unfold persist
  split <;> simp [hne]

end Server

/-! ## Scripts -/

/-- A script: it reads and writes the server and answers, or stops with a fault. -/
def Script (κ α : Type) := Server κ → Except Fault α × Server κ

namespace Script

variable {κ α β : Type}

instance : Monad (Script κ) where
  pure a := fun σ => (.ok a, σ)
  bind x f := fun σ =>
    match x σ with
    | (.ok a, σ') => f a σ'
    | (.error e, σ') => (.error e, σ')

def read (f : Server κ → α) : Script κ α := fun σ => (.ok (f σ), σ)

/-- A command that can fail and writes nothing, as `redis.call` runs it. -/
def query (f : Server κ → Except Fault α) : Script κ α := fun σ => (f σ, σ)

def write (f : Server κ → Server κ) : Script κ Unit := fun σ => (.ok (), f σ)

/-- A command whose fault is an answer, as `redis.pcall` runs it. -/
def pcall (x : Script κ α) : Script κ (Except Fault α) := fun σ => (.ok (x σ).1, (x σ).2)

@[simp] theorem pure_apply (a : α) (σ : Server κ) : (pure a : Script κ α) σ = (.ok a, σ) := rfl

theorem bind_apply (x : Script κ α) (f : α → Script κ β) (σ : Server κ) :
    (x >>= f) σ = match x σ with
      | (.ok a, σ') => f a σ'
      | (.error e, σ') => (.error e, σ') := rfl

variable {f : α → Script κ β} {σ : Server κ}

theorem bind_ok {x : Script κ α} {σ' : Server κ} {a : α} (h : x σ = (.ok a, σ')) :
    (x >>= f) σ = f a σ' := by
  rw [bind_apply, h]

@[simp] theorem read_bind (g : Server κ → α) (f : α → Script κ β) (σ : Server κ) :
    (read g >>= f) σ = f (g σ) σ := rfl

@[simp] theorem write_bind (g : Server κ → Server κ) (f : Unit → Script κ β) (σ : Server κ) :
    (write g >>= f) σ = f () (g σ) := rfl

theorem query_bind_ok {g : Server κ → Except Fault α} {a : α} (h : g σ = .ok a) :
    (query g >>= f) σ = f a σ := bind_ok (by rw [query, h])

theorem query_bind_error {g : Server κ → Except Fault α} {e : Fault} (h : g σ = .error e) :
    (query g >>= f) σ = (.error e, σ) := by
  rw [bind_apply, query, h]

@[simp] theorem read_apply (g : Server κ → α) (σ : Server κ) : read g σ = (.ok (g σ), σ) := rfl

@[simp] theorem write_apply (g : Server κ → Server κ) (σ : Server κ) :
    write g σ = (.ok (), g σ) := rfl

end Script

/-! ## Commands on hashes and sorted sets -/

section Commands

variable {κ : Type} [DecidableEq κ]

/-- `HGET`. -/
def hget (k : κ) (f : Text) : Script κ (Option Text) :=
  .query fun σ => (σ.hash? k).map (·.lookup f)

/-- `HMGET`. -/
def hmget (k : κ) (fs : List Text) : Script κ (List (Option Text)) :=
  .query fun σ => (σ.hash? k).map fun h => fs.map h.lookup

/-- `HLEN`. -/
def hlen (k : κ) : Script κ Nat := .query fun σ => (σ.hash? k).map (·.keys.card)

/-- Set fields of a hash. -/
def Hash.setAll (h : Hash) (fs : List (Text × Text)) : Hash :=
  fs.foldl (fun h f => h.insert f.1 f.2) h

/-- `HSET` with one or more fields. -/
def hset (k : κ) (fs : List (Text × Text)) : Script κ Unit := do
  let h ← .query fun σ => σ.hash? k
  .write fun σ => σ.putHash k (Hash.setAll h fs)

/-- `HSET` under a condition. -/
def hsetIf (c : Prop) [Decidable c] (k : κ) (fs : List (Text × Text)) : Script κ Unit :=
  if c then hset k fs else pure ()

/-- `HDEL`. -/
def hdel (k : κ) (fs : List Text) : Script κ Unit := do
  let h ← .query fun σ => σ.hash? k
  .write fun σ => σ.putHash k (h.eraseAll fs)

/-- The spelling of a whole number. -/
def ofInt (n : Int) : Text :=
  if n < 0 then '-' :: Text.ofNat n.natAbs else Text.ofNat n.natAbs

/-- `ZSCORE`. -/
def zscore (k : κ) (m : Text) : Script κ (Option Nat) :=
  .query fun σ => (σ.zset? k).map (·.score? m)

/-- `ZADD`. -/
def zadd (k : κ) (score : Nat) (m : Text) : Script κ Unit := do
  let z ← .query fun σ => σ.zset? k
  .write fun σ => σ.putZset k (z.add score m)

/-- `ZADD LT`: a member that is there only takes a lower score. -/
def zaddLt (k : κ) (score : Nat) (m : Text) : Script κ Unit := do
  let z ← .query fun σ => σ.zset? k
  .write fun σ => σ.putZset k <|
    match z.score? m with
    | none => z.add score m
    | some s => if score < s then z.add score m else z

/-- `ZREM`. -/
def zrem (k : κ) (ms : List Text) : Script κ Unit := do
  let z ← .query fun σ => σ.zset? k
  .write fun σ => σ.putZset k (z.rem ms)

/-! ## What the commands answer and write -/

variable {σ : Server κ} {k : κ} {h : Hash} {z : ZSet}

section

variable (hh : σ.hash? k = .ok h)

include hh

omit [DecidableEq κ] in
theorem hget_apply (f : Text) : hget k f σ = (.ok (h.lookup f), σ) := by
  rw [hget, Script.query, hh]
  rfl

omit [DecidableEq κ] in
theorem hmget_apply (fs : List Text) : hmget k fs σ = (.ok (fs.map h.lookup), σ) := by
  rw [hmget, Script.query, hh]
  rfl

omit [DecidableEq κ] in
theorem hlen_apply : hlen k σ = (.ok h.keys.card, σ) := by
  rw [hlen, Script.query, hh]
  rfl

theorem hset_apply (fs : List (Text × Text)) :
    hset k fs σ = (.ok (), σ.putHash k (Hash.setAll h fs)) := by
  rw [hset, Script.query_bind_ok hh]
  rfl

theorem hdel_apply (fs : List Text) : hdel k fs σ = (.ok (), σ.putHash k (h.eraseAll fs)) := by
  rw [hdel, Script.query_bind_ok hh]
  rfl

end

omit [DecidableEq κ] in
theorem zscore_apply (hz : σ.zset? k = .ok z) (m : Text) :
    zscore k m σ = (.ok (z.score? m), σ) := by
  rw [zscore, Script.query, hz]
  rfl

theorem zadd_apply (hz : σ.zset? k = .ok z) (s : Nat) (m : Text) :
    zadd k s m σ = (.ok (), σ.putZset k (z.add s m)) := by
  rw [zadd, Script.query_bind_ok hz]
  rfl

theorem zaddLt_apply (hz : σ.zset? k = .ok z) {m : Text} {s : Nat} (hs : z.score? m = some s)
    (score : Nat) :
    zaddLt k score m σ = (.ok (), σ.putZset k (if score < s then z.add score m else z)) := by
  rw [zaddLt, Script.query_bind_ok hz, Script.write_apply, hs]

theorem zrem_apply (hz : σ.zset? k = .ok z) (ms : List Text) :
    zrem k ms σ = (.ok (), σ.putZset k (z.rem ms)) := by
  rw [zrem, Script.query_bind_ok hz]
  rfl

omit [DecidableEq κ] in
theorem store_of_hash? (hh : σ.hash? k = .ok h) {f : Text} (hf : f ∈ h) :
    ∃ d, σ.store k = some ⟨.hash h, d⟩ := by
  unfold Server.hash? at hh
  split at hh
  · cases hh
    exact absurd hf Finmap.notMem_empty
  · rename_i fields d hs
    cases hh
    exact ⟨d, hs⟩
  · simp at hh

end Commands

/-! ## What a script leaves alone -/

/-- Two servers that differ in one key at most. -/
structure Server.Only {κ : Type} (k : κ) (σ τ : Server κ) : Prop where
  micros : τ.micros = σ.micros
  store : ∀ j, j ≠ k → τ.store j = σ.store j

namespace Server.Only

variable {κ : Type} {k : κ} {σ τ υ : Server κ}

theorem refl (k : κ) (σ : Server κ) : Only k σ σ := ⟨rfl, fun _ _ => rfl⟩

theorem trans (h₁ : Only k σ τ) (h₂ : Only k τ υ) : Only k σ υ :=
  ⟨h₂.micros.trans h₁.micros, fun j hj => (h₂.store j hj).trans (h₁.store j hj)⟩

theorem now (h : Only k σ τ) : τ.now = σ.now := by rw [Server.now, Server.now, h.micros]

end Server.Only

theorem hset_only {κ : Type} [DecidableEq κ] {σ : Server κ} {k : κ} {h : Hash}
    (hh : σ.hash? k = .ok h) (fs : List (Text × Text)) :
    ∃ τ, hset k fs σ = (.ok (), τ) ∧ τ.hash? k = .ok (h.setAll fs) ∧ Server.Only k σ τ :=
  ⟨_, hset_apply hh fs, Server.hash?_putHash σ k _,
    by simp, fun _ hj => Server.putHash_store_ne σ _ hj⟩

theorem hsetIf_only {κ : Type} [DecidableEq κ] {σ : Server κ} {k : κ} {h : Hash}
    (hh : σ.hash? k = .ok h) (c : Prop) [Decidable c] (fs : List (Text × Text)) :
    ∃ τ, hsetIf c k fs σ = (.ok (), τ) ∧ τ.hash? k = .ok (if c then h.setAll fs else h) ∧
      Server.Only k σ τ := by
  unfold hsetIf
  split
  · exact hset_only hh fs
  · exact ⟨σ, rfl, hh, .refl k σ⟩

/-! ## What a script preserves -/

/-- A script that keeps a property of the server, whether it answers or fails. -/
def Script.Keeps {κ α : Type} (P : Server κ → Prop) (x : Script κ α) : Prop :=
  ∀ σ, P σ → P (x σ).2

namespace Script.Keeps

variable {κ α β : Type} {P : Server κ → Prop}

protected theorem pure (a : α) : Keeps P (Pure.pure a : Script κ α) := fun _ h => h

protected theorem read (f : Server κ → α) : Keeps P (.read f) := fun _ h => h

protected theorem query (f : Server κ → Except Fault α) : Keeps P (.query f) := fun _ h => h

protected theorem write {f : Server κ → Server κ} (hf : ∀ σ, P σ → P (f σ)) :
    Keeps P (.write f) := hf

protected theorem pcall {x : Script κ α} (hx : Keeps P x) : Keeps P x.pcall := hx

protected theorem bind {x : Script κ α} {f : α → Script κ β} (hx : Keeps P x)
    (hf : ∀ a, Keeps P (f a)) : Keeps P (x >>= f) := by
  intro σ h
  have hτ := hx σ h
  rw [bind_apply]
  rcases hrun : x σ with ⟨e | a, τ⟩
  · rwa [hrun] at hτ
  · rw [hrun] at hτ
    exact hf a τ hτ

theorem command {k : κ} (hP : ∀ σ τ, Server.Only k σ τ → P σ → P τ)
    (f : Server κ → Except Fault α) {g : α → Server κ → Server κ}
    (hg : ∀ a σ, Server.Only k σ (g a σ)) :
    Keeps P (.query f >>= fun a => .write (g a)) :=
  .bind (.query f) fun a => .write fun σ => hP σ _ (hg a σ)

section Commands

variable [DecidableEq κ] {k : κ} (hP : ∀ σ τ, Server.Only k σ τ → P σ → P τ)
include hP

theorem pexpire (ttl : Nat) : Keeps P (.write fun σ => σ.pexpire k ttl) :=
  .write fun σ => hP σ _ ⟨by simp, fun _ hj => Server.pexpire_store_ne σ ttl hj⟩

theorem hset (fs : List (Text × Text)) : Keeps P (hset k fs) :=
  command hP _ fun _ σ => ⟨by simp, fun _ hj => Server.putHash_store_ne σ _ hj⟩

theorem hdel (fs : List Text) : Keeps P (hdel k fs) :=
  command hP _ fun _ σ => ⟨by simp, fun _ hj => Server.putHash_store_ne σ _ hj⟩

theorem zadd (score : Nat) (m : Text) : Keeps P (zadd k score m) :=
  command hP _ fun _ σ => ⟨by simp, fun _ hj => Server.putZset_store_ne σ _ hj⟩

theorem zaddLt (score : Nat) (m : Text) : Keeps P (zaddLt k score m) :=
  command hP _ fun _ σ => ⟨by simp, fun _ hj => Server.putZset_store_ne σ _ hj⟩

theorem zrem (ms : List Text) : Keeps P (zrem k ms) :=
  command hP _ fun _ σ => ⟨by simp, fun _ hj => Server.putZset_store_ne σ _ hj⟩

end Commands

end Script.Keeps

end Olp.Valkey
