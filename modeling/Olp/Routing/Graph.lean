import Mathlib.Data.List.Sort
import Mathlib.Data.List.Chain
import Olp.Checked
import Olp.Search

/-!
# The graph of published routes

The model of `CheckRouteGraph` (`routing/behavior.go`): a route refers to others by its fallbacks,
its selectors and their classifiers, and by the embedding route of its cache.  One search finds a
cycle through any of these edges and the longest chain of those that can answer the caller
(`checkRouteGraph_exact`).  References to routes that are not published are no edges.
-/

namespace Olp.Routing

open List

/-! ## Routes and their edges -/

/-- The conditions that start a fallback. -/
inductive Condition where
  | exhausted
  | contextWindow
  | contentFilter
  | rateLimit
  | budget
deriving DecidableEq, Repr

structure Fallback where
  route : String
  on : List Condition
deriving DecidableEq, Repr

/-- A selector, by the route it delegates to, if any (`""` otherwise), and the route of its
classifier. -/
structure Selector where
  route : String := ""
  classifier : Option String := none
deriving DecidableEq, Repr

inductive CacheMode where
  | exact
  | semantic
deriving DecidableEq, Repr

structure CachePolicy where
  mode : CacheMode
  embeddingRoute : String
deriving DecidableEq, Repr

structure Behavior where
  cache : Option CachePolicy := none
  fallbacks : List Fallback := []
  selectors : List Selector := []
deriving DecidableEq, Repr

inductive Fidelity where
  | strict
  | transformed
deriving DecidableEq, Repr

structure Route extends Behavior where
  slug : String
  projectID : Option String := none
  fidelity : Fidelity := .strict
deriving DecidableEq, Repr

structure RouteEdge where
  target : String
  serving : Bool
deriving DecidableEq, Repr

def Behavior.edges (b : Behavior) : List RouteEdge :=
  (match b.cache with
    | some c => if c.mode = .semantic then [⟨c.embeddingRoute, false⟩] else []
    | none => []) ++
  b.fallbacks.map (fun f => ⟨f.route, true⟩) ++
  b.selectors.flatMap fun s =>
    (if s.route ≠ "" then [⟨s.route, true⟩] else []) ++
    (match s.classifier with
      | some route => [⟨route, false⟩]
      | none => [])

/-- The map of published routes by slug. -/
structure Routes where
  entries : List (String × Route)
  nodup : (entries.map Prod.fst).Nodup

namespace Routes

def find (rs : Routes) (slug : String) : Option Route :=
  (rs.entries.find? (·.1 = slug)).map Prod.snd

def slugs (rs : Routes) : List String := (rs.entries.map Prod.fst).insertionSort (· ≤ ·)

end Routes

/-! ## `CheckRouteGraph` -/

def maxRouteDepth : ℕ := 3

structure Refusal where
  code : String
  message : String
deriving DecidableEq, Repr

def sameProject : Option String → Option String → Bool
  | none, none => true
  | some a, some b => a = b
  | _, _ => false

def projectMismatch (r : Route) (target : String) : Refusal :=
  ⟨"route_graph_project_mismatch", "Route `" ++ r.slug ++ "` refers to `" ++ target ++
    "` in another project."⟩

def fidelityMismatch (r : Route) (target : String) : Refusal :=
  ⟨"route_graph_fidelity_mismatch", "Strict route `" ++ r.slug ++
    "` may fall back or delegate only to strict routes; `" ++ target ++ "` is transformed."⟩

def cycleRefusal (slug : String) : Refusal :=
  ⟨"route_graph_cycle", "Route `" ++ slug ++
    "` reaches itself through fallbacks, selectors or classifiers."⟩

def tooDeep (slug : String) : Refusal :=
  ⟨"route_graph_too_deep", "Route `" ++ slug ++ "` chains more than " ++ toString maxRouteDepth ++
    " routes through fallbacks and selectors."⟩

/-- The checks of one edge of a route. -/
def checkEdge (rs : Routes) (r : Route) (e : RouteEdge) : Except Refusal Unit :=
  match rs.find e.target with
  | none => .ok ()
  | some next => do
      require (sameProject r.projectID next.projectID) (projectMismatch r e.target)
      require (¬(e.serving ∧ r.fidelity = .strict ∧ next.fidelity ≠ .strict))
        (fidelityMismatch r e.target)

def checkEdges (rs : Routes) : Except Refusal Unit :=
  rs.slugs.forM fun slug =>
    match rs.find slug with
    | none => .ok ()
    | some r => r.edges.forM (checkEdge rs r)

/-- The search of `visit`: the value of a route is the number of serving routes on the longest chain
from it. -/
def Routes.search (rs : Routes) : Search String RouteEdge ℕ Refusal where
  edges slug := (((rs.find slug).map (·.edges)).getD []).filter fun e => (rs.find e.target).isSome
  target := RouteEdge.target
  start := 0
  add longest e depth := if e.serving then max longest depth else longest
  finish slug longest :=
    if maxRouteDepth < longest + 1 then .error (tooDeep slug) else .ok (longest + 1)
  cycle := cycleRefusal

/-- An error of `none` would mean that the search needs more fuel than it is given. -/
def checkRouteGraph (rs : Routes) : Except (Option Refusal) Unit := do
  (checkEdges rs).mapError some
  let _ ← rs.search.visitAll (rs.entries.length + 1) rs.slugs fun _ => none

/-! ## What the checks ask of the graph -/

namespace Routes

variable {rs : Routes}

/-- A published route refers to another by some edge. -/
def Edge (rs : Routes) (a b : String) : Prop :=
  ∃ r e, rs.find a = some r ∧ e ∈ r.edges ∧ e.target = b ∧ (rs.find b).isSome

/-- A published route falls back or delegates to another. -/
def Serving (rs : Routes) (a b : String) : Prop :=
  ∃ r e, rs.find a = some r ∧ e ∈ r.edges ∧ e.serving = true ∧ e.target = b ∧ (rs.find b).isSome

theorem mem_slugs {slug : String} : slug ∈ rs.slugs ↔ (rs.find slug).isSome := by
  rw [slugs, mem_insertionSort, find, Option.isSome_map, find?_isSome, mem_map]
  simp

variable {a : String}

theorem mem_search_edges {e : RouteEdge} : e ∈ rs.search.edges a ↔
    ∃ r, rs.find a = some r ∧ e ∈ r.edges ∧ (rs.find e.target).isSome := by
  rw [search, mem_filter]
  cases h : rs.find a with
  | none => simp
  | some r => simp

theorem search_edge {b : String} : rs.search.Edge a b ↔ rs.Edge a b := by
  constructor
  · rintro ⟨e, he, rfl⟩
    obtain ⟨r, hr, hmem, hsome⟩ := mem_search_edges.mp he
    exact ⟨r, e, hr, hmem, rfl, hsome⟩
  · rintro ⟨r, e, hr, hmem, rfl, hsome⟩
    exact ⟨e, mem_search_edges.mpr ⟨r, hr, hmem, hsome⟩, rfl⟩

theorem Serving.exists_edge {b : String} (h : rs.Serving a b) :
    ∃ e ∈ rs.search.edges a, e.serving = true ∧ e.target = b := by
  obtain ⟨r, e, hr, hmem, hserving, rfl, hsome⟩ := h
  exact ⟨e, mem_search_edges.mpr ⟨r, hr, hmem, hsome⟩, hserving, rfl⟩

end Routes

theorem sameProject_iff {a b : Option String} : sameProject a b = true ↔ a = b := by
  cases a <;> cases b <;> simp [sameProject]

variable {rs : Routes}

theorem checkEdge_eq_ok {r : Route} {e : RouteEdge} :
    checkEdge rs r e = .ok () ↔ ∀ next, rs.find e.target = some next →
      r.projectID = next.projectID ∧
      (e.serving = true → r.fidelity = .strict → next.fidelity = .strict) := by
  unfold checkEdge
  cases h : rs.find e.target with
  | none => simp
  | some next => simp [sameProject_iff]

/-- The edges pass exactly when every published target is in the project and as strict. -/
theorem checkEdges_eq_ok : checkEdges rs = .ok () ↔
    ∀ slug r e next, rs.find slug = some r → e ∈ r.edges → rs.find e.target = some next →
      r.projectID = next.projectID ∧
      (e.serving = true → r.fidelity = .strict → next.fidelity = .strict) := by
  rw [checkEdges, forM_eq_ok]
  constructor
  · intro h slug r e next hr he hnext
    have hslug := h slug (Routes.mem_slugs.mpr (by rw [hr]; rfl))
    rw [hr] at hslug
    exact checkEdge_eq_ok.mp (forM_eq_ok.mp hslug e he) next hnext
  · intro h slug _
    cases hr : rs.find slug with
    | none => rfl
    | some r =>
      exact forM_eq_ok.mpr fun e he => checkEdge_eq_ok.mpr fun next => h slug r e next hr he

/-! ## The search -/

theorem foldl_longest (v : String → ℕ) (es : List RouteEdge) : ∀ b,
    let longest := es.foldl (fun b e => if e.serving then max b (v e.target) else b) b
    b ≤ longest ∧ (∀ e ∈ es, e.serving = true → v e.target ≤ longest) ∧
      (longest = b ∨ ∃ e ∈ es, e.serving = true ∧ v e.target = longest) := by
  induction es with
  | nil => exact fun b => ⟨Nat.le_refl b, fun _ h => absurd h not_mem_nil, .inl rfl⟩
  | cons e es ih =>
    intro b
    cases he : e.serving with
    | false =>
      obtain ⟨hle, hall, hsome⟩ := ih b
      simp only [foldl_cons, he, Bool.false_eq_true, if_false]
      refine ⟨hle, forall_mem_cons.mpr ⟨fun h => absurd (he ▸ h) (by decide), hall⟩, ?_⟩
      rcases hsome with h | ⟨e', he', h⟩
      · exact .inl h
      · exact .inr ⟨e', mem_cons_of_mem _ he', h⟩
    | true =>
      obtain ⟨hle, hall, hsome⟩ := ih (max b (v e.target))
      simp only [foldl_cons, he, if_true]
      refine ⟨Nat.le_trans (Nat.le_max_left _ _) hle,
        forall_mem_cons.mpr ⟨fun _ => Nat.le_trans (Nat.le_max_right _ _) hle, hall⟩, ?_⟩
      rcases hsome with h | ⟨e', he', h⟩
      · rcases Nat.le_total (v e.target) b with hv | hv
        · exact .inl (by rw [h, Nat.max_eq_left hv])
        · exact .inr ⟨e, mem_cons_self, he, by rw [h, Nat.max_eq_right hv]⟩
      · exact .inr ⟨e', mem_cons_of_mem _ he', h⟩

/-- What the search knows of a route: no cycle is below it, and its depth is the number of routes on
the longest chain of serving edges from it. -/
structure Depth (rs : Routes) (slug : String) (n : ℕ) : Prop where
  acyclic : Acc (fun b a => rs.Edge a b) slug
  within : n ≤ maxRouteDepth
  longest : ∀ l, (slug :: l).IsChain rs.Serving → l.length + 1 ≤ n
  chain : ∃ l, (slug :: l).IsChain rs.Serving ∧ l.length + 1 = n

/-- The chains from a route go on with the longest ones from the routes it may hand a request to. -/
theorem chain_total {slug : String} {v : String → ℕ}
    (hv : ∀ b, rs.search.Edge slug b → Depth rs b (v b)) :
    (∀ l, (slug :: l).IsChain rs.Serving → l.length ≤ rs.search.total v slug) ∧
      ∃ l, (slug :: l).IsChain rs.Serving ∧ l.length = rs.search.total v slug := by
  obtain ⟨-, hall, hsome⟩ := foldl_longest v (rs.search.edges slug) 0
  constructor
  · intro l hl
    cases l with
    | nil => exact Nat.zero_le _
    | cons b l =>
      obtain ⟨hserving, hl⟩ := isChain_cons_cons.mp hl
      obtain ⟨e, he, hes, rfl⟩ := hserving.exists_edge
      exact Nat.le_trans ((hv _ ⟨e, he, rfl⟩).longest l hl) (hall e he hes)
  · rcases hsome with h | ⟨e, he, hes, h⟩
    · exact ⟨[], .singleton _, h.symm⟩
    · obtain ⟨l, hl, hlen⟩ := (hv _ ⟨e, he, rfl⟩).chain
      obtain ⟨r, hr, hmem, hpublished⟩ := Routes.mem_search_edges.mp he
      refine ⟨e.target :: l, isChain_cons_cons.mpr ⟨?_, hl⟩, ?_⟩
      · exact ⟨r, e, hr, hmem, hes, rfl, hpublished⟩
      · rw [length_cons, hlen]
        exact h

theorem depth_rule (slug : String) (v : String → ℕ) (n : ℕ)
    (hv : ∀ b, rs.search.Edge slug b → Depth rs b (v b))
    (hn : rs.search.finish slug (rs.search.total v slug) = .ok n) : Depth rs slug n := by
  obtain ⟨hall, l, hl, hlen⟩ := chain_total hv
  rw [Routes.search] at hn
  dsimp only at hn
  rw [← Routes.search] at hn
  split at hn
  · cases hn
  · rename_i hwithin
    cases hn
    refine ⟨.intro _ fun b hb => (hv b (Routes.search_edge.mpr hb)).acyclic,
      Nat.le_of_not_lt hwithin,
      fun l hl => Nat.succ_le_succ (hall l hl), l, hl, by rw [hlen]⟩

theorem not_transGen_of_acc {α : Type*} {r : α → α → Prop} {a : α} (h : Acc (fun b a => r a b) a) :
    ¬Relation.TransGen r a a := by
  have hacc : ∀ x, Acc (Relation.TransGen fun b a => r a b) x →
      ¬Relation.TransGen (fun b a => r a b) x x := by
    intro x hx
    induction hx with
    | intro x _ ih => exact fun hxx => ih x hxx hxx
  intro hcycle
  exact hacc a h.transGen (Relation.transGen_swap.mpr hcycle)

/-- The conditions on the whole graph: no cycle through any edges, and no chain of serving edges
that passes through more routes than the limit. -/
structure Routes.Shallow (rs : Routes) : Prop where
  acyclic : ∀ slug, ¬Relation.TransGen rs.Edge slug slug
  chains : ∀ l : List String, l.IsChain rs.Serving → l.length ≤ maxRouteDepth

/-- The search of all routes ends well exactly when the graph is shallow, and never runs out of
fuel. -/
theorem search_exact (rs : Routes) :
    ((∃ m, rs.search.visitAll (rs.entries.length + 1) rs.slugs (fun _ => none) = .ok m) ∧
      rs.Shallow) ∨
      (∃ e, rs.search.visitAll (rs.entries.length + 1) rs.slugs (fun _ => none) = .error (some e)) ∧
        ¬rs.Shallow := by
  have hclosed : ∀ a ∈ rs.slugs, ∀ b, rs.search.Edge a b → b ∈ rs.slugs := by
    intro a _ b hb
    obtain ⟨r, e, -, -, -, hsome⟩ := Routes.search_edge.mp hb
    exact Routes.mem_slugs.mpr hsome
  have hlen : rs.slugs.length < rs.entries.length + 1 := by
    rw [Routes.slugs, length_insertionSort, length_map]
    exact Nat.lt_succ_self _
  rcases Search.visitAll_answers rs.slugs hclosed depth_rule hlen with
    ⟨m, hok, hdepth⟩ | ⟨e, herror, he⟩
  · refine .inl ⟨⟨m, hok⟩, fun slug hcycle => ?_, fun l hl => ?_⟩
    · -- a route on a cycle has an edge, so it is published
      obtain ⟨b, ⟨r, e, hr, -⟩, -⟩ := Relation.TransGen.head'_iff.mp hcycle
      obtain ⟨n, hn⟩ := hdepth slug (Routes.mem_slugs.mpr (by rw [hr]; rfl))
      exact not_transGen_of_acc hn.acyclic hcycle
    · cases l with
      | nil => exact Nat.zero_le _
      | cons slug l =>
        cases l with
        | nil => exact (by decide : 1 ≤ maxRouteDepth)
        | cons b l =>
          obtain ⟨⟨r, e, hr, -⟩, -⟩ := isChain_cons_cons.mp hl
          obtain ⟨n, hn⟩ := hdepth slug (Routes.mem_slugs.mpr (by rw [hr]; rfl))
          exact Nat.le_trans (hn.longest (b :: l) hl) hn.within
  · refine .inr ⟨⟨e, herror⟩, fun hshallow => ?_⟩
    rcases he with ⟨slug, hcycle, -⟩ | ⟨slug, v, hv, hfinish⟩
    · exact hshallow.acyclic slug
        (Relation.TransGen.mono (fun _ _ => Routes.search_edge.mp) slug slug hcycle)
    · obtain ⟨-, l, hl, hlen⟩ := chain_total hv
      have hle := hshallow.chains (slug :: l) hl
      rw [Routes.search] at hfinish
      dsimp only at hfinish
      split at hfinish
      · rename_i hdeep
        rw [length_cons, hlen] at hle
        exact absurd hle (Nat.not_le_of_lt hdeep)
      · cases hfinish

/-- **Route graph validation is exact.**  `CheckRouteGraph` always answers, and accepts a set of
published routes if and only if every edge between two of them stays in one project, every serving
edge out of a strict route leads to a strict route, there is no cycle of edges of any kind, and no
chain of serving edges passes through more than `MaxRouteDepth` routes. -/
theorem checkRouteGraph_exact (rs : Routes) :
    checkRouteGraph rs ≠ .error none ∧
    (checkRouteGraph rs = .ok () ↔
      (∀ slug r e next, rs.find slug = some r → e ∈ r.edges → rs.find e.target = some next →
        r.projectID = next.projectID) ∧
      (∀ slug r e next, rs.find slug = some r → e ∈ r.edges → rs.find e.target = some next →
        e.serving = true → r.fidelity = .strict → next.fidelity = .strict) ∧
      (∀ slug, ¬Relation.TransGen rs.Edge slug slug) ∧
      ∀ chain : List String, chain.IsChain rs.Serving → chain.length ≤ maxRouteDepth) := by
  have hedges := @checkEdges_eq_ok rs
  unfold checkRouteGraph
  cases hcheck : checkEdges rs with
  | error e =>
    refine ⟨fun h => ?_, fun h => ?_, fun h => ?_⟩
    · cases h
    · cases h
    · have := hedges.mpr fun slug r e next hr he hnext =>
        ⟨h.1 slug r e next hr he hnext, h.2.1 slug r e next hr he hnext⟩
      rw [hcheck] at this
      cases this
  | ok u =>
    have hedge := hedges.mp hcheck
    rcases search_exact rs with ⟨⟨m, hm⟩, hshallow⟩ | ⟨⟨e, he⟩, hdeep⟩
    · rw [hm]
      refine ⟨fun h => ?_, fun _ => ?_, fun _ => rfl⟩
      · cases h
      · exact ⟨fun slug r e next hr he hnext => (hedge slug r e next hr he hnext).1,
          fun slug r e next hr he hnext => (hedge slug r e next hr he hnext).2,
          hshallow.acyclic, hshallow.chains⟩
    · rw [he]
      refine ⟨fun h => ?_, fun h => ?_, fun h => ?_⟩
      · cases h
      · cases h
      · exact absurd ⟨h.2.2.1, h.2.2.2⟩ hdeep

/-! ## Four routes in a row -/

theorem rank_bounds (rank : String → ℕ) (hrank : ∀ a b, rs.Edge a b → rank b < rank a) :
    (∀ slug, ¬Relation.TransGen rs.Edge slug slug) ∧
      ∀ slug l, (slug :: l).IsChain rs.Serving → l.length ≤ rank slug := by
  constructor
  · intro slug hcycle
    have hlt : ∀ b, Relation.TransGen rs.Edge slug b → rank b < rank slug := by
      intro b hb
      induction hb with
      | single h => exact hrank _ _ h
      | tail _ h ih => exact Nat.lt_trans (hrank _ _ h) ih
    exact Nat.lt_irrefl _ (hlt slug hcycle)
  · intro slug l
    induction l generalizing slug with
    | nil => exact fun _ => Nat.zero_le _
    | cons b l ih =>
      intro hl
      obtain ⟨⟨r, e, hr, he, -, hb⟩, hl⟩ := isChain_cons_cons.mp hl
      exact Nat.lt_of_le_of_lt (ih b hl) (hrank slug b ⟨r, e, hr, he, hb⟩)

/-- A route that falls back to others when all its attempts fail. -/
def fallingBack (slug : String) (next : List String) : String × Route :=
  (slug, { slug, fallbacks := next.map fun route => ⟨route, [.exhausted]⟩ })

def fourRoutes : Routes where
  entries :=
    [fallingBack "a" ["b"], fallingBack "b" ["c"], fallingBack "c" ["d"], fallingBack "d" []]
  nodup := by decide

theorem fourRoutes_edge {a b : String} (h : fourRoutes.Edge a b) :
    (a, b) ∈ [("a", "b"), ("b", "c"), ("c", "d")] := by
  obtain ⟨r, e, hr, he, rfl, -⟩ := h
  obtain ⟨⟨key, r'⟩, hfind, rfl⟩ := Option.map_eq_some_iff.mp hr
  obtain rfl : key = a := by simpa using find?_some hfind
  have hmem := mem_of_find?_eq_some hfind
  simp only [fourRoutes, fallingBack, mem_cons, not_mem_nil, or_false] at hmem
  rcases hmem with h | h | h | h <;> cases h <;>
    simp [Behavior.edges] at he <;> simp [he]

/-- Three serving edges make a chain that is no longer than `MaxRouteDepth`, and every other
condition holds; but they pass through four routes and are refused. -/
theorem checkRouteGraph_counts_routes :
    checkRouteGraph fourRoutes = .error (some (tooDeep "a")) ∧
    (∀ slug r e next, fourRoutes.find slug = some r → e ∈ r.edges →
      fourRoutes.find e.target = some next → r.projectID = next.projectID ∧
        (e.serving = true → r.fidelity = .strict → next.fidelity = .strict)) ∧
    (∀ slug, ¬Relation.TransGen fourRoutes.Edge slug slug) ∧
    ∀ slug l, (slug :: l).IsChain fourRoutes.Serving → l.length ≤ maxRouteDepth := by
  have hcheck : checkEdges fourRoutes = .ok () := by rfl
  have hrank := @rank_bounds fourRoutes
    (fun slug => if slug = "a" then 3 else if slug = "b" then 2 else if slug = "c" then 1 else 0) ?_
  · refine ⟨by rfl, checkEdges_eq_ok.mp hcheck, hrank.1, fun slug l hl => ?_⟩
    refine Nat.le_trans (hrank.2 slug l hl) ?_
    split_ifs <;> decide
  · intro a b h
    have := fourRoutes_edge h
    simp only [mem_cons, Prod.mk.injEq, not_mem_nil, or_false] at this
    rcases this with ⟨rfl, rfl⟩ | ⟨rfl, rfl⟩ | ⟨rfl, rfl⟩ <;> decide

end Olp.Routing
