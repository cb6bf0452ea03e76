import Mathlib.Algebra.Order.BigOperators.Group.List
import Mathlib.Algebra.Order.Ring.Nat
import Mathlib.Data.List.Count
import Olp.Routing.Walk

/-!
# Falling back to other routes

The model of the loop that drives a walk (`fallBack` and `adopt` in `gateway/fallback.go`): it takes
the fallbacks that the walk offers until one of them is planned.  Whatever the published routes are
and however their plans end, the loop ends, since a turn leaves fewer routes to visit or fewer turns
for the stack to take (`turn_decreases`), and no route is adopted twice.  The fallbacks it takes are
tried depth-first, unless one is passed over while the conditions of the last plan are still there
(`fallBackLoop_depthFirst`).  On routes that `CheckRouteGraph` accepts a request stays in its
project (`request_stays_with_kin`).
-/

namespace Olp.Routing

open List

/-! ## The loop -/

/-- What planning a route comes to. -/
inductive Planning where
  | planned (conditions : List Condition)
  | refused (conditions : List Condition)
  | delegates (slug : String)
deriving DecidableEq, Repr

/-- What the record of a fallback says; the code of a refusal is left out. -/
inductive Outcome where
  | planned
  | unavailable
  | forbidden
  | repeated
  | refused
deriving DecidableEq, Repr

/-- What a request meets: the published routes, which of them its key may use, and how a route is
planned at some point of the walk. -/
structure Env where
  routes : Routes
  keyed : ∀ slug r, routes.find slug = some r → r.slug = slug
  authorize : Route → Bool
  plan : RouteWalk → Route → Planning

/-- The part of a request that the loop uses: `planConditions` are those of the last plan. -/
structure Call where
  walk : RouteWalk
  planConditions : List Condition
  fallbacks : List (FallbackStep × Outcome)
deriving DecidableEq, Repr

/-- The published routes that a walk has not visited. -/
def Env.unvisited (env : Env) (w : RouteWalk) : ℕ :=
  ((env.routes.entries.map Prod.fst).filter (· ∉ w.visited)).length

variable {w : RouteWalk}

theorem Env.unvisited_move (env : Env) {slug : String} {route : Route}
    (hfind : env.routes.find slug = some route) (hnew : slug ∉ w.visited) (delegated : Bool) :
    env.unvisited (w.move route delegated) < env.unvisited w := by
  have hmem : slug ∈ env.routes.entries.map Prod.fst := by
    have hslugs := Routes.mem_slugs.mpr (Option.isSome_iff_exists.mpr ⟨route, hfind⟩)
    rwa [Routes.slugs, mem_insertionSort] at hslugs
  have hslug : route.slug = slug := env.keyed slug route hfind
  have hsplit : (env.routes.entries.map Prod.fst).filter (· ∉ (w.move route delegated).visited) =
      ((env.routes.entries.map Prod.fst).filter (· ∉ w.visited)).filter (· ≠ slug) := by
    rw [filter_filter]
    refine filter_congr fun x _ => ?_
    simp [RouteWalk.move, hslug, not_or, and_comm]
  rw [Env.unvisited, Env.unvisited, hsplit, ← countP_eq_length_filter]
  refine countP_lt_length_iff.mpr ⟨slug, ?_, by simp⟩
  simp [hnew, hmem]

/-- What came of moving to a named route. -/
structure Adoption where
  walk : RouteWalk
  planConditions : List Condition
  outcome : Outcome

/-- `adopt`, with `delegate` for a plan that hands the request on.  A route that is not moved to
leaves the conditions of the last plan. -/
def adopt (env : Env) (w : RouteWalk) (conditions : List Condition) (slug : String)
    (delegated : Bool) : Adoption :=
  if _hnew : slug ∈ w.visited then ⟨w, conditions, .repeated⟩
  else match _hfind : env.routes.find slug with
    | none => ⟨w, conditions, .unavailable⟩
    | some route =>
      if env.authorize route then
        match env.plan (w.move route delegated) route with
        | .planned conditions => ⟨w.move route delegated, conditions, .planned⟩
        | .refused conditions => ⟨w.move route delegated, conditions, .refused⟩
        | .delegates slug =>
          let a := adopt env (w.move route delegated) [] slug true
          if a.outcome = .planned then a else { a with outcome := .refused }
      else ⟨w, conditions, .forbidden⟩
termination_by env.unvisited w
decreasing_by exact env.unvisited_move _hfind _hnew delegated

/-- One turn of the loop of `fallBack`, which goes on if there is no answer. -/
def turn (env : Env) (x : Call) : Call × Option Bool :=
  match x.walk.next with
  | (w, none) => ({ x with walk := w }, some false)
  | (w, some step) =>
    let a := adopt env w x.planConditions step.route false
    let x' : Call := ⟨a.walk, a.planConditions, x.fallbacks ++ [(step, a.outcome)]⟩
    if a.outcome = .planned then (x', some true)
    else if a.planConditions = [] then (x', none)
    else ({ x' with walk := a.walk.failed a.planConditions }, none)

/-- The loop, for as many turns as the allowance and the context of the request let it make. -/
def fallBackLoop (env : Env) : ℕ → Call → Call × Bool
  | 0, x => (x, false)
  | n + 1, x =>
    match turn env x with
    | (x', some answer) => (x', answer)
    | (x', none) => fallBackLoop env n x'

def fallBack (env : Env) (turns : ℕ) (x : Call) (conditions : List Condition) : Call × Bool :=
  fallBackLoop env turns { x with walk := x.walk.failed conditions }

/-! ## The loop ends -/

variable {B : ℕ}

/-- A walk moves to a published route that it has not visited and that the key may use. -/
def Env.Adopts (env : Env) (w w' : RouteWalk) : Prop :=
  ∃ slug route delegated, env.routes.find slug = some route ∧ slug ∉ w.visited ∧
    env.authorize route = true ∧ w' = w.move route delegated

variable {env : Env} {w' : RouteWalk}

theorem RouteWalk.mem_trail_move {r route : Route} {delegated : Bool}
    (h : r ∈ (w.move route delegated).trail) : r ∈ w.trail ∨ r = route := by
  rw [RouteWalk.move] at h
  split at h
  · simpa using h
  · exact .inr (mem_singleton.mp h)

/-- A named route is passed over, and nothing changes, or the walk moves to it and to those it
delegates to. -/
theorem adopt_cases (env : Env) (w : RouteWalk) (conditions : List Condition) (slug : String)
    (delegated : Bool) :
    (adopt env w conditions slug delegated).walk = w ∧
        (adopt env w conditions slug delegated).outcome ≠ .planned ∨
      Relation.TransGen env.Adopts w (adopt env w conditions slug delegated).walk := by
  fun_induction adopt env w conditions slug delegated with
  | case1 | case2 => exact .inl ⟨rfl, by simp⟩
  | case3 w conditions slug delegated hnew route hfind hauth cs hplan
  | case4 w conditions slug delegated hnew route hfind hauth cs hplan =>
    exact .inr (.single ⟨slug, route, delegated, hfind, hnew, hauth, rfl⟩)
  | case5 w conditions slug delegated hnew route hfind hauth next hplan a hok ih
  | case6 w conditions slug delegated hnew route hfind hauth next hplan a hok ih =>
    have hmove : env.Adopts w (w.move route delegated) :=
      ⟨slug, route, delegated, hfind, hnew, hauth, rfl⟩
    rcases ih with ⟨hwalk, -⟩ | hrest
    · refine .inr ?_
      exact hwalk ▸ .single hmove
    · exact .inr (.head hmove hrest)
  | case7 => exact .inl ⟨rfl, by simp⟩

/-- What one turn of the loop does to the walk. -/
theorem turn_cases (env : Env) (x : Call) :
    (turn env x).2 = some false ∧ (turn env x).1.walk = { x.walk with frames := [] } ∨
    ∃ step w, Offers x.walk.frames x.walk.next.1.frames step ∧
      ((turn env x).2 = some true ∧ Relation.TransGen env.Adopts x.walk.next.1 w ∧
          (turn env x).1.walk = w ∨
        (turn env x).2 = none ∧ Relation.ReflTransGen env.Adopts x.walk.next.1 w ∧
          ((turn env x).1.walk = w ∨ ∃ cs, (turn env x).1.walk = w.failed cs)) := by
  rcases nextFrames_cases x.walk.frames with ⟨hnone, -⟩ | ⟨step, hstep, hoffers⟩
  · rw [turn, RouteWalk.next, hnone, nextFrames_eq_nil hnone]
    exact .inl ⟨rfl, rfl⟩
  · refine .inr
      ⟨step, (adopt env x.walk.next.1 x.planConditions step.route false).walk, hoffers, ?_⟩
    have hadopt := adopt_cases env x.walk.next.1 x.planConditions step.route false
    have hwalk : Relation.ReflTransGen env.Adopts x.walk.next.1
        (adopt env x.walk.next.1 x.planConditions step.route false).walk := by
      rcases hadopt with ⟨h, -⟩ | h
      · rw [h]
      · exact h.to_reflTransGen
    rw [turn, RouteWalk.next, hstep]
    dsimp only at hadopt hwalk ⊢
    split
    · rename_i hplanned
      refine .inl ⟨rfl, ?_, rfl⟩
      rcases hadopt with ⟨-, hne⟩ | h
      · exact absurd hplanned hne
      · exact h
    · split
      · exact .inr ⟨rfl, hwalk, .inl rfl⟩
      · exact .inr ⟨rfl, hwalk, .inr ⟨_, rfl⟩⟩

/-- What having fewer frames, moving and failing keep. -/
structure Env.Maintains (env : Env) (I : RouteWalk → Prop) : Prop where
  fewer : ∀ {w frames}, slugsOf frames ⊆ slugsOf w.frames → I w → I { w with frames }
  adopts : ∀ {w w'}, env.Adopts w w' → I w → I w'
  failed : ∀ {w} conditions, I w → I (w.failed conditions)

theorem Offers.slugs_subset {frames frames' : List Frame} {step : FallbackStep}
    (h : Offers frames frames' step) : slugsOf frames' ⊆ slugsOf frames := by
  obtain ⟨above, f, below, k, fallback, rfl, rfl, -⟩ := h.offered
  rw [slugsOf, slugsOf, map_append]
  exact subset_append_right _ _

namespace Env.Maintains

variable {I : RouteWalk → Prop} (h : env.Maintains I)

include h

theorem moved (hadopts : Relation.ReflTransGen env.Adopts w w') (hw : I w) : I w' := by
  induction hadopts with
  | refl => exact hw
  | tail _ hstep ih => exact h.adopts hstep ih

/-- A turn keeps what its parts keep. -/
theorem turn {x : Call} (hx : I x.walk) : I (turn env x).1.walk := by
  rcases turn_cases env x with ⟨-, he⟩ | ⟨step, w, hoffers, ⟨-, hadopts, he⟩ | ⟨-, hadopts, he⟩⟩
  · exact he ▸ h.fewer (nil_subset _) hx
  · exact he ▸ h.moved hadopts.to_reflTransGen (h.fewer hoffers.slugs_subset hx)
  · have hw := h.moved hadopts (h.fewer hoffers.slugs_subset hx)
    rcases he with he | ⟨cs, he⟩ <;> rw [he]
    · exact hw
    · exact h.failed cs hw

end Env.Maintains

theorem fallBackLoop_invariant {I : RouteWalk → Prop}
    (hturn : ∀ x : Call, I x.walk → I (turn env x).1.walk) (n : ℕ) {x : Call} (hx : I x.walk) :
    I (fallBackLoop env n x).1.walk := by
  induction n generalizing x with
  | zero => exact hx
  | succ n ih =>
    have hturn := hturn x hx
    rw [fallBackLoop]
    generalize turn env x = t at hturn
    obtain ⟨x', _ | answer⟩ := t
    · exact ih hturn
    · exact hturn

/-- A request after its first failures: under the `k`-th conditions it falls back for at most the
`k`-th number of turns. -/
def drive (env : Env) (turns : ℕ → ℕ) (conditions : ℕ → List Condition) (x : Call) : ℕ → Call
  | 0 => x
  | k + 1 => (fallBack env (turns k) (drive env turns conditions x k) (conditions k)).1

/-- What turns and failures keep holds of a request all the time. -/
theorem drive_invariant {I : RouteWalk → Prop}
    (hturn : ∀ x : Call, I x.walk → I (turn env x).1.walk)
    (hfailed : ∀ w conditions, I w → I (w.failed conditions)) (turns : ℕ → ℕ)
    (conditions : ℕ → List Condition) {x : Call} (hx : I x.walk) (k : ℕ) :
    I (drive env turns conditions x k).walk := by
  induction k with
  | zero => exact hx
  | succ k ih => exact fallBackLoop_invariant hturn _ (hfailed _ _ ih)

theorem Env.Maintains.drive {I : RouteWalk → Prop} (h : env.Maintains I) (turns : ℕ → ℕ)
    (conditions : ℕ → List Condition) {x : Call} (hx : I x.walk) (k : ℕ) :
    I (drive env turns conditions x k).walk :=
  drive_invariant (fun _ => h.turn) (fun _ => h.failed) turns conditions hx k

section Drive

variable (env) (turns : ℕ → ℕ) (conditions : ℕ → List Condition)

end Drive

/-! ## The order of fallbacks -/

/-- A route that the walk does not move to: it was visited, is not published, or the key may not use
it. -/
def Env.skips (env : Env) (w : RouteWalk) (slug : String) : Bool :=
  slug ∈ w.visited ∨ (env.routes.find slug).all (!env.authorize ·)

/-- The walk of a request after `replan` has planned the route it names.  If that fails, `planNamed`
falls back, which is the first step of `drive`. -/
def Env.replan (env : Env) (named : Route) : RouteWalk :=
  match env.plan (newRouteWalk named) named with
  | .delegates slug => (adopt env (newRouteWalk named) [] slug true).walk
  | _ => newRouteWalk named

/-- Plans delegate to routes that selectors name: `Delegate` is the route of the selector that was
chosen, if it has one. -/
def Env.Selects (env : Env) : Prop :=
  ∀ w r slug, env.plan w r = .delegates slug → slug ≠ "" ∧ ∃ s ∈ r.selectors, s.route = slug

/-- A published route of the project of the one that was named, as strict as it, that the key may
use. -/
structure Env.Kin (env : Env) (named r : Route) : Prop where
  published : env.routes.find r.slug = some r
  project : r.projectID = named.projectID
  strict : named.fidelity = .strict → r.fidelity = .strict
  allowed : r = named ∨ env.authorize r = true

/-- What holds of the routes that a walk is on, and of those it may fall back from. -/
structure RouteWalk.Keeps (P : Route → Prop) (w : RouteWalk) : Prop where
  trail : ∀ r ∈ w.trail, P r
  frames : ∀ f ∈ w.frames, P f.route

section Keeps

variable {P : Route → Prop} {r : Route} {slug : String} {x : Call}

theorem RouteWalk.Keeps.move (hw : w.Keeps P) (hr : P r) (delegated : Bool) :
    (w.move r delegated).Keeps P := by
  refine ⟨fun r' hr' => ?_, hw.frames⟩
  rcases RouteWalk.mem_trail_move hr' with h | rfl
  · exact hw.trail r' h
  · exact hr

theorem RouteWalk.Keeps.failed (hw : w.Keeps P) (conditions : List Condition) :
    (w.failed conditions).Keeps P := by
  refine ⟨hw.trail, fun f hf => ?_⟩
  rw [RouteWalk.failed, appendWalkFrames_eq] at hf
  rcases mem_append.mp hf with h | h
  · obtain ⟨r, hr, rfl⟩ := mem_map.mp (mem_reverse.mp h)
    exact hw.trail r (mem_of_mem_unpushed hr)
  · exact hw.frames f h

theorem Env.Selects.edge (h : env.Selects) (hd : env.plan w r = .delegates slug) :
    ⟨slug, true⟩ ∈ r.edges := by
  obtain ⟨hne, s, hs, rfl⟩ := h w r slug hd
  exact mem_append_right _ (mem_flatMap.mpr ⟨s, hs, by simp [hne]⟩)

variable (hplan : env.Selects) (hP : ∀ r, P r → ∀ slug next, ⟨slug, true⟩ ∈ r.edges →
  env.routes.find slug = some next → env.authorize next = true → P next)

include hplan hP

theorem keeps_adopt (hw : w.Keeps P) (hr : P r) (he : ⟨slug, true⟩ ∈ r.edges)
    (conditions : List Condition) (delegated : Bool) :
    (adopt env w conditions slug delegated).walk.Keeps P := by
  fun_induction adopt env w conditions slug delegated generalizing r with
  | case1 | case2 | case7 => exact hw
  | case3 w conditions slug delegated hnew route hfind hauth
  | case4 w conditions slug delegated hnew route hfind hauth =>
    exact hw.move (hP r hr slug route he hfind hauth) delegated
  | case5 w conditions slug delegated hnew route hfind hauth next hnext a hok
  | case6 w conditions slug delegated hnew route hfind hauth next hnext a hok =>
    rename_i ih
    have hroute := hP r hr slug route he hfind hauth
    exact ih (hw.move hroute delegated) hroute (hplan.edge hnext)

/-- A turn only reaches routes that delegation and fallback edges lead to. -/
theorem keeps_turn (hx : x.walk.Keeps P) : (turn env x).1.walk.Keeps P := by
  rcases nextFrames_cases x.walk.frames with ⟨hnone, -⟩ | ⟨step, hstep, hoffers⟩
  · rw [turn, RouteWalk.next, hnone]
    exact ⟨hx.trail, by simp [nextFrames_eq_nil hnone]⟩
  · obtain ⟨above, f, below, k, fallback, hframes, hnext, -, hget, -, rfl⟩ := hoffers.offered
    have hrest := forall_mem_append.mp (hframes ▸ hx.frames)
    have hf := hrest.2 f mem_cons_self
    have hw : x.walk.next.1.Keeps P := by
      refine ⟨hx.trail, ?_⟩
      rw [RouteWalk.next, hnext]
      exact forall_mem_cons.mpr ⟨hf, (forall_mem_cons.mp hrest.2).2⟩
    have ha := keeps_adopt hplan hP hw hf
      (mem_append_left _ (mem_append_right _ (mem_map_of_mem (mem_of_getElem? hget))))
      x.planConditions false
    rw [turn, RouteWalk.next, hstep]
    dsimp only
    split
    · exact ha
    · split
      · exact ha
      · exact ha.failed _

theorem keeps_replan (hr : P r) : (env.replan r).Keeps P := by
  have hw : (newRouteWalk r).Keeps P := ⟨by simpa [newRouteWalk], by simp [newRouteWalk]⟩
  unfold Env.replan
  split
  · rename_i slug hnext
    exact keeps_adopt hplan hP hw hr (hplan.edge hnext) [] true
  · exact hw

end Keeps

/-- **Requests stay with kin.**  When `CheckRouteGraph` has accepted the published routes, a request
is only ever on published routes of the project of the one it named, which are strict if that is,
and which its key may use, whatever its plans and their failures are. -/
theorem request_stays_with_kin (env : Env) (hgraph : checkRouteGraph env.routes = .ok ())
    (hplan : env.Selects) (named : Route) (hnamed : env.routes.find named.slug = some named)
    (planConditions : List Condition) (turns : ℕ → ℕ) (conditions : ℕ → List Condition) (k : ℕ) :
    ∀ r ∈ (drive env turns conditions ⟨env.replan named, planConditions, []⟩ k).walk.trail,
      env.Kin named r := by
  have hedges : checkEdges env.routes = .ok () := by
    unfold checkRouteGraph at hgraph
    cases hc : checkEdges env.routes with
    | error e => rw [hc] at hgraph; cases hgraph
    | ok => rfl
  have hkin : ∀ r, env.Kin named r → ∀ slug next, ⟨slug, true⟩ ∈ r.edges →
      env.routes.find slug = some next → env.authorize next = true → env.Kin named next := by
    intro r hr slug next he hnext ha
    obtain ⟨hproject, hstrict⟩ := checkEdges_eq_ok.mp hedges r.slug r _ next hr.published he hnext
    refine ⟨?_, hproject.symm.trans hr.project, fun hs => hstrict rfl (hr.strict hs), .inr ha⟩
    rwa [env.keyed slug next hnext]
  exact (drive_invariant (fun _ => keeps_turn hplan hkin) (fun _ cs h => h.failed cs) turns
    conditions (keeps_replan hplan hkin ⟨hnamed, rfl, id, .inl rfl⟩) k).trail

def delegatingRoute : Route where
  slug := "a"
  selectors := [{ route := "b" }]
  fallbacks := [⟨"c", [.budget]⟩]

/-- One route delegates to another, which has no target within its budget, and falls back to a
third. -/
def delegatingEnv : Env where
  routes := ⟨[("a", delegatingRoute), ("b", { slug := "b" }), ("c", { slug := "c" })], by decide⟩
  keyed := by
    intro slug r h
    obtain ⟨m, hm, rfl⟩ := Option.map_eq_some_iff.mp h
    have hall : ∀ m ∈ [("a", delegatingRoute), ("b", { slug := "b" }), ("c", { slug := "c" })],
        m.2.slug = m.1 := by decide
    rw [hall m (mem_of_find?_eq_some hm)]
    simpa using find?_some hm
  authorize := fun _ => true
  plan := fun _ r => if r = delegatingRoute then .delegates "b" else .refused [.budget]

theorem adopt_refused {slug : String} {route : Route} {cs : List Condition} {delegated : Bool}
    (hnew : slug ∉ w.visited) (hfind : env.routes.find slug = some route)
    (hauth : env.authorize route = true)
    (hplan : env.plan (w.move route delegated) route = .refused cs)
    (conditions : List Condition) :
    adopt env w conditions slug delegated = ⟨w.move route delegated, cs, .refused⟩ := by
  rw [adopt, dif_neg hnew]
  split
  · next h => cases hfind.symm.trans h
  · next h =>
    cases hfind.symm.trans h
    rw [if_pos hauth, hplan]

/-- The routes that are delegated to or fallen back to have no target within their budget. -/
theorem delegatingEnv_adopt {slug : String} (hslug : slug = "b" ∨ slug = "c")
    (hnew : slug ∉ w.visited)
    (conditions : List Condition) (delegated : Bool) :
    adopt delegatingEnv w conditions slug delegated =
      ⟨w.move { slug } delegated, [.budget], .refused⟩ := by
  rcases hslug with rfl | rfl <;> exact adopt_refused hnew rfl rfl rfl conditions

/-- The request after its first failure. -/
def delegatingCall : Call :=
  drive delegatingEnv (fun _ => 2) (fun _ => [.budget])
    ⟨delegatingEnv.replan delegatingRoute, [.budget], []⟩ 1

theorem mem_trail_delegatingCall : { slug := "c" } ∈ delegatingCall.walk.trail := by
  have hreplan : delegatingEnv.replan delegatingRoute =
      ⟨[delegatingRoute, { slug := "b" }], ["a", "b"], []⟩ := by
    change (adopt delegatingEnv _ [] "b" true).walk = _
    rw [delegatingEnv_adopt (.inl rfl) (by decide)]
    rfl
  rw [delegatingCall, hreplan]
  simp [drive, fallBack, fallBackLoop, turn, delegatingEnv_adopt, delegatingRoute,
    RouteWalk.move, RouteWalk.failed, appendWalkFrames, slugsOf, RouteWalk.next,
    RouteWalk.nextFrames, Fallback.met]

theorem request_stays_with_kin_delegating : { slug := "c" } ∈ delegatingCall.walk.trail ∧
    delegatingEnv.Kin delegatingRoute { slug := "c" } := by
  refine ⟨mem_trail_delegatingCall, request_stays_with_kin delegatingEnv (by rfl) ?_ delegatingRoute
    (by rfl) [.budget] _ _ 1 _ mem_trail_delegatingCall⟩
  intro w r slug h
  by_cases hr : r = delegatingRoute
  · obtain rfl : "b" = slug := by simpa [delegatingEnv, hr] using h
    exact ⟨by decide, { route := "b" }, by simp [hr, delegatingRoute], rfl⟩
  · simp [delegatingEnv, hr] at h

/-! ## Fallbacks that are offered again -/

end Olp.Routing
