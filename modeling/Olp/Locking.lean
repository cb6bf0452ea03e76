import Mathlib.Data.Finmap
import Olp.Run
import Olp.Tally

/-!
# Transactions under row locks

A transaction is a program of statements on a table of rows.  It locks a row to read it, keeps the
lock to its end, writes rows that it has locked or inserted, and may look at the table as committed
without locking anything.  Statements of different sessions interleave; a statement whose row
another session has locked waits; what a session has written is seen by others from its commit on.

What comes of it is that every commit is an execution of its transaction in one piece, on the
table it commits to (`commit_exec`).  In that execution nothing is known of what was read without
a lock.  So an invariant of the table need only be checked for transactions in one piece
(`run_commits`).
-/

namespace Olp.Locking

open List

variable {K : Type} {V : K → Type} {C E A B : Type}

/-- A transaction.  `lock` reads and locks a row, `insert` adds one and says whether there was
none, and `peek` reads the table without locking. -/
inductive Prog (V : K → Type) (E A : Type) where
  | done (a : A)
  | fail (e : E)
  | lock (k : K) (next : Option (V k) → Prog V E A)
  | insert (k : K) (v : V k) (next : Bool → Prog V E A)
  | write (k : K) (v : V k) (next : Prog V E A)
  | peek (next : Finmap V → Prog V E A)

namespace Prog

def bind : Prog V E A → (A → Prog V E B) → Prog V E B
  | .done a, f => f a
  | .fail e, _ => .fail e
  | .lock k next, f => .lock k fun v => (next v).bind f
  | .insert k v next, f => .insert k v fun b => (next b).bind f
  | .write k v next, f => .write k v (next.bind f)
  | .peek next, f => .peek fun s => (next s).bind f

instance : Monad (Prog V E) where
  pure := .done
  bind := bind

def require (p : Prop) [Decidable p] (e : E) : Prog V E Unit := if p then .done () else .fail e

def lockRow (k : K) : Prog V E (Option (V k)) := .lock k .done

def insertRow (k : K) (v : V k) : Prog V E Bool := .insert k v .done

def writeRow (k : K) (v : V k) : Prog V E Unit := .write k v (.done ())

def look : Prog V E (Finmap V) := .peek .done

end Prog

variable [DecidableEq K]

/-! ## Executions in one piece -/

/-- A transaction is executed in one piece, from a table to another.  A row may be missed by a
lock, and an insertion turned down, whatever the table; a look at the table may show anything. -/
inductive Exec : Finmap V → Prog V E A → A → Finmap V → Prop
  | done (s : Finmap V) (a : A) : Exec s (.done a) a s
  | lock {s s' : Finmap V} {k next a} (h : Exec s (next (s.lookup k)) a s') :
      Exec s (.lock k next) a s'
  | missing {s s' : Finmap V} {k next a} (h : Exec s (next none) a s') : Exec s (.lock k next) a s'
  | insert {s s' : Finmap V} {k v next a} (hk : s.lookup k = none)
      (h : Exec (s.insert k v) (next true) a s') : Exec s (.insert k v next) a s'
  | conflict {s s' : Finmap V} {k v next a} (h : Exec s (next false) a s') :
      Exec s (.insert k v next) a s'
  | write {s s' : Finmap V} {k v next a} (h : Exec (s.insert k v) next a s') :
      Exec s (.write k v next) a s'
  | peek {s s' : Finmap V} {next a} (t : Finmap V) (h : Exec s (next t) a s') :
      Exec s (.peek next) a s'

section Exec

variable {s s' : Finmap V} {a : A} {b : B}

@[simp] theorem exec_pure {a' : A} : Exec s (pure a : Prog V E A) a' s' ↔ a' = a ∧ s' = s := by
  refine ⟨?_, ?_⟩
  · intro h
    cases h
    exact ⟨rfl, rfl⟩
  · rintro ⟨rfl, rfl⟩
    exact .done _ _

@[simp] theorem exec_fail {e : E} : ¬Exec s (.fail e : Prog V E A) a s' := by
  intro h
  cases h

theorem exec_bind {p : Prog V E A} {f : A → Prog V E B} :
    Exec s (p >>= f) b s' ↔ ∃ a t, Exec s p a t ∧ Exec t (f a) b s' := by
  refine ⟨fun h => ?_, ?_⟩
  · induction p generalizing s with
    | done a => exact ⟨a, s, .done s a, h⟩
    | fail e => cases h
    | lock k next ih =>
      cases h with
      | lock h =>
        obtain ⟨a, t, h₁, h₂⟩ := ih _ h
        exact ⟨a, t, .lock h₁, h₂⟩
      | missing h =>
        obtain ⟨a, t, h₁, h₂⟩ := ih _ h
        exact ⟨a, t, .missing h₁, h₂⟩
    | insert k v next ih =>
      cases h with
      | insert hk h =>
        obtain ⟨a, t, h₁, h₂⟩ := ih _ h
        exact ⟨a, t, .insert hk h₁, h₂⟩
      | conflict h =>
        obtain ⟨a, t, h₁, h₂⟩ := ih _ h
        exact ⟨a, t, .conflict h₁, h₂⟩
    | write k v next ih =>
      cases h with
      | write h =>
        obtain ⟨a, t, h₁, h₂⟩ := ih h
        exact ⟨a, t, .write h₁, h₂⟩
    | peek next ih =>
      cases h with
      | peek u h =>
        obtain ⟨a, t, h₁, h₂⟩ := ih _ h
        exact ⟨a, t, .peek u h₁, h₂⟩
  · rintro ⟨a, t, h₁, h₂⟩
    induction h₁ with
    | done => exact h₂
    | lock _ ih => exact .lock (ih h₂)
    | missing _ ih => exact .missing (ih h₂)
    | insert hk _ ih => exact .insert hk (ih h₂)
    | conflict _ ih => exact .conflict (ih h₂)
    | write _ ih => exact .write (ih h₂)
    | peek u _ ih => exact .peek u (ih h₂)

@[simp] theorem exec_require {p : Prop} [Decidable p] {e : E} {u : Unit} :
    Exec s (Prog.require p e) u s' ↔ p ∧ s' = s := by
  unfold Prog.require
  split
  · rename_i hp
    exact exec_pure.trans (by simp [hp])
  · rename_i hp
    simp [hp]

variable {k : K} {v : V k}

omit [DecidableEq K] in
theorem found {x : Option (V k)} (h : some v = x ∨ some v = none) : x = some v := by
  rcases h with h | h
  · exact h.symm
  · cases h

theorem exec_lockRow {r : Option (V k)} :
    Exec s (Prog.lockRow k : Prog V E _) r s' ↔ (r = s.lookup k ∨ r = none) ∧ s' = s := by
  refine ⟨?_, ?_⟩
  · intro h
    cases h with
    | lock h =>
      cases h
      exact ⟨.inl rfl, rfl⟩
    | missing h =>
      cases h
      exact ⟨.inr rfl, rfl⟩
  · rintro ⟨rfl | rfl, rfl⟩
    · exact .lock (.done _ _)
    · exact .missing (.done _ _)

theorem exec_insertRow {r : Bool} :
    Exec s (Prog.insertRow k v : Prog V E _) r s' ↔
      r = true ∧ s.lookup k = none ∧ s' = s.insert k v ∨ r = false ∧ s' = s := by
  refine ⟨?_, ?_⟩
  · intro h
    cases h with
    | insert hk h =>
      cases h
      exact .inl ⟨rfl, hk, rfl⟩
    | conflict h =>
      cases h
      exact .inr ⟨rfl, rfl⟩
  · rintro (⟨rfl, hk, rfl⟩ | ⟨rfl, rfl⟩)
    · exact .insert hk (.done _ _)
    · exact .conflict (.done _ _)

@[simp] theorem exec_writeRow {u : Unit} :
    Exec s (Prog.writeRow k v : Prog V E _) u s' ↔ s' = s.insert k v := by
  refine ⟨?_, ?_⟩
  · intro h
    cases h with
    | write h =>
      cases h
      rfl
  · rintro rfl
    exact .write (.done _ _)

@[simp] theorem exec_look {t : Finmap V} : Exec s (Prog.look : Prog V E _) t s' ↔ s' = s := by
  refine ⟨?_, ?_⟩
  · intro h
    cases h with
    | peek u h =>
      cases h
      rfl
  · rintro rfl
    exact .peek t (.done _ _)

end Exec

/-! ## Sessions -/

/-- A transaction under way: what is left of it, the rows it has locked, and what it has
written. -/
structure Session (V : K → Type) (C E A : Type) where
  call : C
  rest : Prog V E A
  held : List K
  writes : Finmap V

/-- The committed table, the sessions that were ever opened, and the calls that committed, in
order. -/
structure System (V : K → Type) (C E A : Type) where
  store : Finmap V
  sessions : List (Option (Session V C E A))
  log : List (C × A)

/-- A call opens a session, a session goes on with its next statement, or it is cut off. -/
inductive Action (C : Type) where
  | call (c : C)
  | go (i : ℕ)
  | cut (i : ℕ)
deriving DecidableEq, Repr

namespace System

def new (V : K → Type) (C E A : Type) : System V C E A := ⟨∅, [], []⟩

/-- Another session has locked a row. -/
def taken (s : System V C E A) (i : ℕ) (k : K) : Bool :=
  (s.sessions.set i none).any fun t => t.any fun t => k ∈ t.held

/-- Put a session in its place. -/
def put (s : System V C E A) (i : ℕ) (t : Option (Session V C E A)) : System V C E A :=
  { s with sessions := s.sessions.set i t }

/-- One statement of a session. -/
def advance (s : System V C E A) (i : ℕ) (t : Session V C E A) : System V C E A :=
  match t.rest with
  | .done a => ⟨t.writes ∪ s.store, s.sessions.set i none, s.log ++ [(t.call, a)]⟩
  | .fail _ => s.put i none
  | .lock k next =>
    if (t.writes ∪ s.store).lookup k = none then s.put i (some { t with rest := next none })
    else if s.taken i k then s
    else s.put i (some { t with
      rest := next ((t.writes ∪ s.store).lookup k), held := k :: t.held })
  | .insert k v next =>
    if (t.writes ∪ s.store).lookup k = none then
      if s.taken i k then s
      else s.put i (some { t with
        rest := next true, held := k :: t.held, writes := t.writes.insert k v })
    else s.put i (some { t with rest := next false })
  | .write k v next =>
    if s.taken i k then s
    else s.put i (some { t with
      rest := next, held := k :: t.held, writes := t.writes.insert k v })
  | .peek next => s.put i (some { t with rest := next (t.writes ∪ s.store) })

def step (body : C → Prog V E A) (s : System V C E A) : Action C → System V C E A
  | .call c => { s with sessions := s.sessions ++ [some ⟨c, body c, [], ∅⟩] }
  | .go i => match s.sessions[i]? with
      | some (some t) => s.advance i t
      | _ => s
  | .cut i => s.put i none

end System

/-! ## Every commit is an execution in one piece -/

variable {body : C → Prog V E A} {s : System V C E A} {t : Session V C E A} {i : ℕ}

/-- A session is at `i`. -/
def System.At (s : System V C E A) (i : ℕ) (t : Session V C E A) : Prop :=
  s.sessions[i]? = some (some t)

variable (body) in
/-- What a session has done is a beginning of its transaction on every table that has the locked
rows of this one. -/
def Replays (store : Finmap V) (t : Session V C E A) : Prop :=
  ∀ σ : Finmap V, (∀ k ∈ t.held, σ.lookup k = store.lookup k) →
    ∀ a σ', Exec (t.writes ∪ σ) t.rest a σ' → Exec σ (body t.call) a σ'

variable (body) in
structure System.Ok (s : System V C E A) : Prop where
  apart : ∀ i j t u k, s.At i t → s.At j u → k ∈ t.held → k ∈ u.held → i = j
  owned : ∀ i t, s.At i t → ∀ k ∈ t.writes, k ∈ t.held
  replays : ∀ i t, s.At i t → Replays body s.store t

theorem not_held_of_not_taken {k : K} (h : s.taken i k = false) {j : ℕ} {u : Session V C E A}
    (hu : s.At j u) (hij : i ≠ j) : k ∉ u.held := by
  intro hk
  have hmem : some u ∈ s.sessions.set i none := by
    rw [mem_iff_getElem?]
    exact ⟨j, by rw [getElem?_set_ne hij]; exact hu⟩
  have : s.taken i k = true := any_eq_true.mpr ⟨some u, hmem, by simpa using hk⟩
  rw [h] at this
  cases this

omit [DecidableEq K] in
theorem at_put {u : Session V C E A} {j : ℕ} {o : Option (Session V C E A)}
    (hu : (s.put i o).At j u) : (i = j ∧ o = some u) ∨ i ≠ j ∧ s.At j u := by
  unfold System.At System.put at hu
  rw [getElem?_set] at hu
  split at hu
  · rename_i hij
    split at hu
    · exact .inl ⟨hij, Option.some.inj hu⟩
    · cases hu
  · rename_i hij
    exact .inr ⟨hij, hu⟩

theorem System.Ok.close (h : s.Ok body) : (s.put i none).Ok body := by
  have hold : ∀ j u, (s.put i none).At j u → s.At j u := by
    intro j u hu
    rcases at_put hu with ⟨-, e⟩ | ⟨-, hu⟩
    · cases e
    · exact hu
  exact
    { apart := fun j j' u u' k hu hu' => h.apart j j' u u' k (hold j u hu) (hold j' u' hu')
      owned := fun j u hu => h.owned j u (hold j u hu)
      replays := fun j u hu => h.replays j u (hold j u hu) }

theorem System.Ok.move (h : s.Ok body) (ht : s.At i t) {t' : Session V C E A}
    (hheld : ∀ k ∈ t'.held, k ∈ t.held ∨ s.taken i k = false)
    (howned : ∀ k ∈ t'.writes, k ∈ t'.held) (hreplays : Replays body s.store t') :
    (s.put i (some t')).Ok body := by
  have hapart : ∀ j u k, s.At j u → i ≠ j → k ∈ t'.held → k ∉ u.held := by
    intro j u k hu hij hk hku
    rcases hheld k hk with hk | hk
    · exact hij (h.apart i j t u k ht hu hk hku)
    · exact not_held_of_not_taken hk hu hij hku
  refine ⟨?_, ?_, ?_⟩
  · intro j j' u u' k hu hu' hk hk'
    rcases at_put hu with ⟨rfl, e⟩ | ⟨hij, hu⟩ <;>
      rcases at_put hu' with ⟨rfl, e'⟩ | ⟨hij', hu'⟩
    · rfl
    · cases e
      exact absurd hk' (hapart j' u' k hu' hij' hk)
    · cases e'
      exact absurd hk (hapart j u k hu hij hk')
    · exact h.apart j j' u u' k hu hu' hk hk'
  · intro j u hu
    rcases at_put hu with ⟨-, e⟩ | ⟨-, hu⟩
    · cases e
      exact howned
    · exact h.owned j u hu
  · intro j u hu
    rcases at_put hu with ⟨-, e⟩ | ⟨-, hu⟩
    · cases e
      exact hreplays
    · exact h.replays j u hu

theorem lookup_union_congr {w σ τ : Finmap V} {k : K} (h : σ.lookup k = τ.lookup k) :
    (w ∪ σ).lookup k = (w ∪ τ).lookup k := by
  by_cases hk : k ∈ w
  · rw [Finmap.lookup_union_left hk, Finmap.lookup_union_left hk]
  · rw [Finmap.lookup_union_right hk, Finmap.lookup_union_right hk, h]

section

variable (h : s.Ok body)

include h

theorem System.Ok.commit (ht : s.At i t) (l : List (C × A)) :
    System.Ok body ⟨t.writes ∪ s.store, s.sessions.set i none, l⟩ := by
  have hclose : (s.put i none).Ok body := h.close
  refine ⟨hclose.apart, hclose.owned, ?_⟩
  intro j u hu σ hσ
  refine hclose.replays j u hu σ fun k hk => ?_
  rw [hσ k hk]
  refine Finmap.lookup_union_right fun hw => ?_
  rcases at_put (o := none) hu with ⟨-, e⟩ | ⟨hij, hu⟩
  · cases e
  · exact hij (h.apart i j t u k ht hu (h.owned i t ht k hw) hk)

theorem System.Ok.pass (ht : s.At i t) {rest : Prog V E A}
    (hexec : ∀ σ a σ', Exec (t.writes ∪ σ) rest a σ' → Exec (t.writes ∪ σ) t.rest a σ') :
    (s.put i (some { t with rest := rest })).Ok body := by
  refine h.move ht (fun k hk => .inl hk) (h.owned i t ht) ?_
  intro σ hσ a σ' hrest
  exact h.replays i t ht σ hσ a σ' (hexec σ a σ' hrest)

theorem System.Ok.take (ht : s.At i t) {k : K} (hk : ¬s.taken i k = true)
    {rest : Prog V E A} {w : Finmap V} (hw : ∀ j ∈ w, j = k ∨ j ∈ t.writes)
    (hexec : ∀ σ, (t.writes ∪ σ).lookup k = (t.writes ∪ s.store).lookup k →
      ∀ a σ', Exec (w ∪ σ) rest a σ' → Exec (t.writes ∪ σ) t.rest a σ') :
    (s.put i (some { t with rest := rest, held := k :: t.held, writes := w })).Ok body := by
  refine h.move ht ?_ ?_ ?_
  · intro j hj
    rcases mem_cons.mp hj with rfl | hj
    · exact .inr (by simpa using hk)
    · exact .inl hj
  · intro j hj
    rcases hw j hj with rfl | hj
    · exact mem_cons_self
    · exact mem_cons_of_mem k (h.owned i t ht j hj)
  · intro σ hσ a σ' hrest
    refine h.replays i t ht σ (fun j hj => hσ j (mem_cons_of_mem k hj)) a σ' ?_
    exact hexec σ (lookup_union_congr (hσ k mem_cons_self)) a σ' hrest

theorem System.Ok.advance (ht : s.At i t) : (s.advance i t).Ok body := by
  have hinsert : ∀ {k : K} {v : V k}, ∀ j ∈ t.writes.insert k v, j = k ∨ j ∈ t.writes :=
    fun _ hj => Finmap.mem_insert.mp hj
  unfold System.advance
  cases hrest : t.rest with
  | done a => exact h.commit ht _
  | fail e => exact h.close
  | lock k next =>
    dsimp only
    split
    · exact h.pass ht fun σ a σ' he => hrest ▸ .missing he
    · split
      · exact h
      · rename_i htaken
        refine h.take ht htaken (fun j hj => .inr hj) fun σ hσ a σ' he => hrest ▸ .lock ?_
        rw [hσ]
        exact he
  | insert k v next =>
    dsimp only
    split
    · rename_i hnone
      split
      · exact h
      · rename_i htaken
        refine h.take ht htaken hinsert fun σ hσ a σ' he => hrest ▸ .insert (hσ.trans hnone) ?_
        rw [Finmap.insert_union]
        exact he
    · exact h.pass ht fun σ a σ' he => hrest ▸ .conflict he
  | write k v next =>
    dsimp only
    split
    · exact h
    · rename_i htaken
      refine h.take ht htaken hinsert fun σ _ a σ' he => hrest ▸ .write ?_
      rw [Finmap.insert_union]
      exact he
  | peek next => exact h.pass ht fun σ a σ' he => hrest ▸ .peek _ he

theorem System.Ok.call (c : C) : (s.step body (.call c)).Ok body := by
  have hat : ∀ j u, (s.step body (.call c)).At j u → s.At j u ∨ u = ⟨c, body c, [], ∅⟩ := by
    intro j u hu
    unfold System.At System.step at hu
    rw [getElem?_append] at hu
    split at hu
    · exact .inl hu
    · have := mem_singleton.mp (mem_of_getElem? hu)
      exact .inr (Option.some.inj this)
  refine ⟨?_, ?_, ?_⟩
  · intro j j' u u' k hu hu' hk hk'
    rcases hat j u hu with hu | rfl
    · rcases hat j' u' hu' with hu' | rfl
      · exact h.apart j j' u u' k hu hu' hk hk'
      · exact absurd hk' not_mem_nil
    · exact absurd hk not_mem_nil
  · intro j u hu k hk
    rcases hat j u hu with hu | rfl
    · exact h.owned j u hu k hk
    · exact absurd hk Finmap.notMem_empty
  · intro j u hu
    rcases hat j u hu with hu | rfl
    · exact h.replays j u hu
    · intro σ _ a σ' hexec
      rwa [Finmap.empty_union] at hexec

theorem System.Ok.step (x : Action C) : (s.step body x).Ok body := by
  cases x with
  | call c => exact h.call c
  | go i =>
    unfold System.step
    dsimp only
    split
    · rename_i t ht
      exact h.advance ht
    · exact h
  | cut i => exact h.close

end

theorem System.new_ok : (System.new V C E A).Ok body := by
  have hnone : ∀ i t, ¬(System.new V C E A).At i t := by
    intro i t ht
    cases ht
  refine ⟨?_, ?_, ?_⟩
  · intro i j t u k ht
    exact absurd ht (hnone i t)
  all_goals
    intro i t ht
    exact absurd ht (hnone i t)

/-- A step commits nothing, or one call, as executed in one piece. -/
theorem commit_exec (h : s.Ok body) (x : Action C) :
    (s.step body x).store = s.store ∧ (s.step body x).log = s.log ∨
      ∃ c a, (s.step body x).log = s.log ++ [(c, a)] ∧
        Exec s.store (body c) a (s.step body x).store := by
  cases x with
  | call c | cut i => exact .inl ⟨rfl, rfl⟩
  | go i =>
    unfold System.step
    dsimp only
    split
    · rename_i t ht
      have hreplays := h.replays i t ht s.store (fun _ _ => rfl)
      unfold System.advance
      cases hrest : t.rest with
      | done a =>
        rw [hrest] at hreplays
        exact .inr ⟨t.call, a, rfl, hreplays a _ (.done _ _)⟩
      | fail e => exact .inl ⟨rfl, rfl⟩
      | lock k next | insert k v next =>
        dsimp only
        repeat' split
        all_goals exact .inl ⟨rfl, rfl⟩
      | write k v next =>
        dsimp only
        split
        all_goals exact .inl ⟨rfl, rfl⟩
      | peek next => exact .inl ⟨rfl, rfl⟩
    · exact .inl ⟨rfl, rfl⟩

/-- The state that a list of actions leads to. -/
abbrev reach (body : C → Prog V E A) (xs : List (Action C)) : System V C E A :=
  run (System.step body) (System.new V C E A) xs

/-- In every reachable state no two sessions hold one row, and each has run as if alone on what it
holds. -/
theorem reach_ok (xs : List (Action C)) : (reach body xs).Ok body :=
  run_induction (P := fun s : System V C E A => s.Ok body) (fun _ x hs => hs.step x)
    xs System.new_ok

theorem run_commits {P : Finmap V → List (C × A) → Prop} (hnil : P ∅ [])
    (hcommit : ∀ s l c a s', P s l → Exec s (body c) a s' → P s' (l ++ [(c, a)]))
    (xs : List (Action C)) : P (reach body xs).store (reach body xs).log := by
  have h : (reach body xs).Ok body ∧ P (reach body xs).store (reach body xs).log := by
    refine run_induction (P := fun s : System V C E A => s.Ok body ∧ P s.store s.log) ?_ xs
      ⟨System.new_ok, hnil⟩
    rintro s x ⟨hok, hp⟩
    refine ⟨hok.step x, ?_⟩
    rcases commit_exec hok x with ⟨hstore, hlog⟩ | ⟨c, a, hlog, hexec⟩
    · rw [hstore, hlog]
      exact hp
    · rw [hlog]
      exact hcommit _ _ c a _ hp hexec
  exact h.2

variable (body) in
/-- An action commits a call. -/
def System.Commits (s : System V C E A) (x : Action C) (c : C) (a : A) : Prop :=
  (s.step body x).log = s.log ++ [(c, a)]

/-- A transaction that commits has executed on the store as it then is. -/
theorem System.Ok.exec_of_commits (h : s.Ok body) {x : Action C} {c : C} {a : A}
    (hc : s.Commits body x c a) : Exec s.store (body c) a (s.step body x).store := by
  rw [System.Commits] at hc
  rcases commit_exec h x with ⟨-, hlog⟩ | ⟨c', a', hlog, hexec⟩
  · rw [hlog] at hc
    simp at hc
  · rw [hlog] at hc
    obtain ⟨rfl, rfl⟩ : c' = c ∧ a' = a := by simpa using hc
    exact hexec

end Olp.Locking
