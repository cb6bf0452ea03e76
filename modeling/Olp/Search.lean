import Mathlib.Logic.Relation
import Mathlib.Data.List.Basic

/-!
# Memoised search of a graph

A depth-first search that gives every node a value, computed from the values of its successors, and
stops at a node it is already below.  What the search says about a graph follows from one rule: what
holds of the values of the successors of a node holds of its own value.  Then it holds of every
value that is given, and if the search stops there is a cycle, or a node whose value is refused
(`Answers`).
-/

namespace Olp

open List Function

/-- A graph by the edges out of its nodes, and how the value of a node is put together. -/
structure Search (α L β ε : Type) where
  edges : α → List L
  target : L → α
  start : β
  add : β → L → β → β
  finish : α → β → Except ε β
  cycle : α → ε

namespace Search

/-- The mark of a node that was met: it is on the path to the current one, or has its value. -/
inductive Mark (β : Type) where
  | onPath
  | done (b : β)

abbrev Marks (α β : Type) := α → Option (Mark β)

section Search

variable {α L β ε σ τ : Type} [DecidableEq α] [Inhabited β] (g : Search α L β ε)

/-- The value of a node, or the default value if it has none yet. -/
def value (m : Marks α β) (a : α) : β :=
  match m a with
  | some (.done b) => b
  | _ => default

/-- The search from a node; an error of `none` means that the fuel has run out. -/
def visit : ℕ → α → Marks α β → Except (Option ε) (Marks α β)
  | 0, _, _ => .error none
  | n + 1, a, m =>
    match m a with
    | some .onPath => .error (some (g.cycle a))
    | some (.done _) => .ok m
    | none => do
        let s ← (g.edges a).foldlM (fun s e => do
          let m ← visit n (g.target e) s.1
          return (m, g.add s.2 e (value m (g.target e))))
          (update m a (some .onPath), g.start)
        match g.finish a s.2 with
        | .error e => .error (some e)
        | .ok b => .ok (update s.1 a (some (.done b)))

/-- The search from every node of a list. -/
def visitAll (n : ℕ) (l : List α) (m : Marks α β) : Except (Option ε) (Marks α β) :=
  l.foldlM (fun m a => g.visit n a m) m

/-! ## What a search answers -/

def Edge (a b : α) : Prop := ∃ e ∈ g.edges a, g.target e = b

/-- What a node puts together from the values of its successors. -/
def total (v : α → β) (a : α) : β :=
  (g.edges a).foldl (fun b e => g.add b e (v (g.target e))) g.start

/-- Why a search may stop: a cycle, or a value that is refused although those of the successors
have the property. -/
def Refused (P : α → β → Prop) (e : ε) : Prop :=
  (∃ a, Relation.TransGen g.Edge a a ∧ g.cycle a = e) ∨
    ∃ a v, (∀ b, g.Edge a b → P b (v b)) ∧ g.finish a (g.total v a) = .error e

/-- A part of the search ends well or is refused, and has fuel enough. -/
def Answers (P : α → β → Prop) (x : Except (Option ε) σ) (good : σ → Prop) : Prop :=
  (∃ s, x = .ok s ∧ good s) ∨ ∃ e, x = .error (some e) ∧ g.Refused P e

variable {g} {P : α → β → Prop}

omit [DecidableEq α] [Inhabited β] in
theorem Answers.bind {x : Except (Option ε) σ} {f : σ → Except (Option ε) τ} {good : σ → Prop}
    {good' : τ → Prop} (h : g.Answers P x good) (hf : ∀ s, good s → g.Answers P (f s) good') :
    g.Answers P (x >>= f) good' := by
  rcases h with ⟨s, rfl, hs⟩ | ⟨e, rfl, he⟩
  · exact hf s hs
  · exact .inr ⟨e, rfl, he⟩

omit [DecidableEq α] [Inhabited β] in
theorem answers_ok {s : σ} {good : σ → Prop} (h : good s) : g.Answers P (.ok s) good :=
  .inl ⟨s, rfl, h⟩

/-! ## Marks -/

/-- Marks are kept, and no node is left on the path. -/
structure Grows (m m' : Marks α β) : Prop where
  keeps : ∀ x k, m x = some k → m' x = some k
  path : ∀ x, m' x = some .onPath → m x = some .onPath

omit [DecidableEq α] [Inhabited β] in
theorem Grows.refl (m : Marks α β) : Grows m m := ⟨fun _ _ h => h, fun _ h => h⟩

omit [DecidableEq α] [Inhabited β] in
theorem Grows.trans {m₁ m₂ m₃ : Marks α β} (h : Grows m₁ m₂) (h' : Grows m₂ m₃) : Grows m₁ m₃ :=
  ⟨fun x k hx => h'.keeps x k (h.keeps x k hx), fun x hx => h.path x (h'.path x hx)⟩

def Sound (P : α → β → Prop) (m : Marks α β) : Prop := ∀ a b, m a = some (.done b) → P a b

omit [Inhabited β] in
theorem Grows.done {m m' : Marks α β} {a : α} (h : Grows (update m a (some .onPath)) m')
    (hm : m a = none) (b : β) : Grows m (update m' a (some (.done b))) := by
  constructor
  · intro x k hx
    have hxa : x ≠ a := fun e => by
      rw [e, hm] at hx
      cases hx
    rw [update_of_ne hxa]
    exact h.keeps x k (by rwa [update_of_ne hxa])
  · intro x hx
    by_cases hxa : x = a
    · rw [hxa, update_self] at hx
      cases hx
    · rw [update_of_ne hxa] at hx
      have := h.path x hx
      rwa [update_of_ne hxa] at this

omit [Inhabited β] in
theorem Sound.update {m : Marks α β} (hs : Sound P m) {a : α} {k : Mark β}
    (hk : ∀ b, k = .done b → P a b) : Sound P (update m a (some k)) := by
  intro x b hx
  by_cases hxa : x = a
  · rw [hxa, update_self] at hx
    rw [hxa]
    exact hk b (Option.some.inj hx)
  · rw [update_of_ne hxa] at hx
    exact hs x b hx

def unmarked (nodes : List α) (m : Marks α β) : ℕ := nodes.countP fun x => (m x).isNone

variable {m : Marks α β}

variable {nodes : List α}

omit [DecidableEq α] [Inhabited β] in
theorem unmarked_le {m' : Marks α β} (h : Grows m m') : unmarked nodes m' ≤ unmarked nodes m := by
  refine countP_mono_left fun x _ hx => ?_
  cases hm : m x with
  | none => rfl
  | some k =>
    rw [h.keeps x k hm] at hx
    cases hx

variable {a : α}

omit [Inhabited β] in
theorem unmarked_update_lt (ha : a ∈ nodes) (hm : m a = none) (k : Mark β) :
    unmarked nodes (update m a (some k)) < unmarked nodes m := by
  induction nodes with
  | nil => cases ha
  | cons x nodes ih =>
    have hle : unmarked nodes (update m a (some k)) ≤ unmarked nodes m := by
      refine countP_mono_left fun y _ hy => ?_
      by_cases hya : y = a
      · rw [hya, hm]
        rfl
      · rwa [update_of_ne hya] at hy
    rw [unmarked, unmarked, countP_cons, countP_cons]
    by_cases hxa : x = a
    · rw [hxa, update_self, hm]
      exact Nat.lt_succ_of_le hle
    · rw [update_of_ne hxa]
      have hmem := (mem_cons.mp ha).resolve_left fun e => hxa e.symm
      exact Nat.add_lt_add_right (ih hmem) _

/-! ## The search -/

/-- What a search from a node of the graph makes of the marks. -/
def Visits (g : Search α L β ε) (P : α → β → Prop) (nodes : List α) (n : ℕ) : Prop :=
  ∀ a m, a ∈ nodes → unmarked nodes m < n → Sound P m →
    (∀ x, m x = some .onPath → Relation.TransGen g.Edge x a) →
    g.Answers P (g.visit n a m) fun m' => Grows m m' ∧ Sound P m' ∧ ∃ b, m' a = some (.done b)

omit [DecidableEq α] in
theorem value_done {b : β} (h : m a = some (.done b)) : value m a = b := by
  rw [value, h]

/-- The successors of a node on the path get their values, and what is put together from them is
what the final marks give. -/
theorem Visits.edges {n : ℕ} (hn : Visits g P nodes n) (es : List L) (m : Marks α β) (b : β)
    (hes : (∀ e ∈ es, g.target e ∈ nodes ∧ g.Edge a (g.target e))) (hfuel : unmarked nodes m < n)
    (hs : Sound P m) (hpath : (∀ x, m x = some .onPath → Relation.ReflTransGen g.Edge x a)) :
    g.Answers P (es.foldlM (fun s e => do
        let m ← g.visit n (g.target e) s.1
        return (m, g.add s.2 e (value m (g.target e)))) (m, b))
      fun s => Grows m s.1 ∧ Sound P s.1 ∧ (∀ e ∈ es, ∃ b, s.1 (g.target e) = some (.done b)) ∧
        s.2 = es.foldl (fun b e => g.add b e (value s.1 (g.target e))) b := by
  induction es generalizing m b with
  | nil => exact answers_ok ⟨.refl m, hs, fun _ h => absurd h not_mem_nil, rfl⟩
  | cons e es ih =>
    obtain ⟨⟨hmem, hedge⟩, hes⟩ := forall_mem_cons.mp hes
    have hvisit := hn (g.target e) m hmem hfuel hs fun x hx => .tail' (hpath x hx) hedge
    have hfirst : g.Answers P (do
        let m ← g.visit n (g.target e) m
        return (m, g.add b e (value m (g.target e))))
        fun s => Grows m s.1 ∧ Sound P s.1 ∧
          ∃ b', s.1 (g.target e) = some (.done b') ∧ s.2 = g.add b e b' := by
      refine hvisit.bind ?_
      rintro m₁ ⟨hgrows, hs₁, b', hb'⟩
      exact answers_ok ⟨hgrows, hs₁, b', hb', by rw [value_done hb']⟩
    refine hfirst.bind ?_
    rintro ⟨m₁, b₁⟩ ⟨hgrows, hs₁, b', hb', hb₁⟩
    have hfuel₁ := Nat.lt_of_le_of_lt (unmarked_le hgrows) hfuel
    rcases ih m₁ b₁ hes hfuel₁ hs₁ fun x hx => hpath x (hgrows.path x hx) with
      ⟨s, hok, hgrows', hs', hdone, htotal⟩ | hrefused
    · refine .inl ⟨s, hok, hgrows.trans hgrows', hs', forall_mem_cons.mpr ⟨?_, hdone⟩, ?_⟩
      · exact ⟨b', hgrows'.keeps _ _ hb'⟩
      · -- the value that was added is still the value of the node
        have hadded : b₁ = g.add b e (value s.1 (g.target e)) := by
          rw [value_done (hgrows'.keeps _ _ hb')]
          exact hb₁
        rw [htotal, foldl_cons, hadded]
    · exact .inr hrefused

variable (nodes) (hclosed : ∀ a ∈ nodes, ∀ b, g.Edge a b → b ∈ nodes)
  (rule : ∀ a v b, (∀ c, g.Edge a c → P c (v c)) → g.finish a (g.total v a) = .ok b → P a b)

include hclosed rule

/-- A search gives values with the property to the node and what is below it, by the rule that the
property goes from successors to a node. -/
theorem visits (n : ℕ) : Visits g P nodes n := by
  induction n with
  | zero =>
    intro a m _ hfuel
    exact absurd hfuel (Nat.not_lt_zero _)
  | succ n ih =>
    intro a m ha hfuel hs hpath
    rw [visit]
    cases hm : m a with
    | some k =>
      cases k with
      | onPath => exact .inr ⟨_, rfl, .inl ⟨a, hpath a hm, rfl⟩⟩
      | done b => exact answers_ok ⟨.refl m, hs, b, hm⟩
    | none =>
      -- the node is on the path while its successors are searched
      have hedges := ih.edges (a := a) (g.edges a) (update m a (some .onPath)) g.start
        (fun e he => ⟨hclosed a ha _ ⟨e, he, rfl⟩, e, he, rfl⟩)
        (Nat.lt_of_lt_of_le (unmarked_update_lt ha hm _) (Nat.le_of_lt_succ hfuel)) ?_ ?_
      · refine hedges.bind ?_
        rintro ⟨m', b⟩ ⟨hgrows, hs', hdone, htotal⟩
        have hvalues : ∀ c, g.Edge a c → P c (value m' c) := by
          rintro c ⟨e, he, rfl⟩
          obtain ⟨b', hb'⟩ := hdone e he
          rw [value_done hb']
          exact hs' _ _ hb'
        have htotal : b = g.total (value m') a := htotal
        cases hfinish : g.finish a b with
        | error e => exact .inr ⟨e, rfl, .inr ⟨a, value m', hvalues, htotal ▸ hfinish⟩⟩
        | ok b' =>
          have hb' := rule a (value m') b' hvalues (htotal ▸ hfinish)
          refine answers_ok ⟨hgrows.done hm b', hs'.update ?_, b', update_self ..⟩
          rintro c ⟨⟩
          exact hb'
      · refine hs.update ?_
        rintro b ⟨⟩
      · intro x hx
        by_cases hxa : x = a
        · rw [hxa]
        · rw [update_of_ne hxa] at hx
          exact (hpath x hx).to_reflTransGen

/-- A search of all nodes of a graph gives each of them a value with the property, or is refused. -/
theorem visitAll_answers {n : ℕ} (hn : nodes.length < n) :
    g.Answers P (g.visitAll n nodes fun _ => none) fun _ => ∀ a ∈ nodes, ∃ b, P a b := by
  -- over the nodes still to be searched: those before them have values
  have hall : ∀ (l : List α) (m : Marks α β), (∀ a ∈ l, a ∈ nodes) → Sound P m →
      (∀ x, m x ≠ some .onPath) →
      g.Answers P (g.visitAll n l m) fun m' => Sound P m' ∧ Grows m m' ∧
        ∀ a ∈ l, ∃ b, m' a = some (.done b) := by
    intro l
    induction l with
    | nil =>
      intro m _ hs _
      exact answers_ok ⟨hs, .refl m, fun _ h => absurd h not_mem_nil⟩
    | cons a l ih =>
      intro m hl hs hpath
      obtain ⟨ha, hl⟩ := forall_mem_cons.mp hl
      have hfuel : unmarked nodes m < n := Nat.lt_of_le_of_lt countP_le_length hn
      refine (visits nodes hclosed rule n a m ha hfuel hs
        fun x hx => absurd hx (hpath x)).bind ?_
      rintro m₁ ⟨hgrows, hs₁, b, hb⟩
      rcases ih m₁ hl hs₁ fun x hx => hpath x (hgrows.path x hx) with
        ⟨m', hok, hs', hgrows', hdone⟩ | hrefused
      · refine .inl ⟨m', hok, hs', hgrows.trans hgrows', forall_mem_cons.mpr ⟨?_, hdone⟩⟩
        exact ⟨b, hgrows'.keeps _ _ hb⟩
      · exact .inr hrefused
  rcases hall nodes (fun _ => none) (fun _ h => h) (fun a b h => by cases h)
    (fun x h => by cases h) with
    ⟨m', hok, hs, -, hdone⟩ | hrefused
  · refine .inl ⟨m', hok, fun a ha => ?_⟩
    obtain ⟨b, hb⟩ := hdone a ha
    exact ⟨b, hs a b hb⟩
  · exact .inr hrefused

end Search

end Search

end Olp
