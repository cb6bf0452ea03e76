import Mathlib.Algebra.GroupWithZero.Nat
import Olp.Routing.Graph

/-!
# The walk over fallback routes

The model of `RouteWalk` (`routing/walk.go`).  A walk keeps a stack of the routes that failed, each
with the fallbacks it has not offered yet; what it still offers is read off the stack (`due`), and
every operation is described by what it does to that list.
-/

namespace Olp.Routing

open List

/-! ## Walks -/

/-- A route that failed, under which conditions, and the first fallback it has not offered. -/
structure Frame where
  route : Route
  conditions : List Condition
  next : ℕ
deriving DecidableEq, Repr

/-- The stack has its top first. -/
structure RouteWalk where
  trail : List Route
  visited : List String
  frames : List Frame
deriving DecidableEq, Repr

/-- A fallback that is offered: the route that declared it, the route it names and the conditions it
is for. -/
structure FallbackStep where
  declaredBy : String
  route : String
  conditions : List Condition
deriving DecidableEq, Repr

def Fallback.met (f : Fallback) (conditions : List Condition) : List Condition :=
  f.on.filter (· ∈ conditions)

def newRouteWalk (route : Route) : RouteWalk := ⟨[route], [route.slug], []⟩

def slugsOf (frames : List Frame) : List String := frames.map (·.route.slug)

def appendWalkFrames : List Frame → List Route → List Condition → List Frame
  | frames, [], _ => frames
  | frames, route :: routes, conditions =>
    if route.fallbacks = [] ∨ route.slug ∈ slugsOf frames then
      appendWalkFrames frames routes conditions
    else appendWalkFrames (⟨route, conditions, 0⟩ :: frames) routes conditions

namespace RouteWalk

def move (w : RouteWalk) (route : Route) (delegated : Bool) : RouteWalk where
  trail := if delegated then w.trail ++ [route] else [route]
  visited := w.visited ++ [route.slug]
  frames := w.frames

def failed (w : RouteWalk) (conditions : List Condition) : RouteWalk :=
  { w with frames := appendWalkFrames w.frames w.trail conditions }

/-- What is left of a frame, for `next` to end. -/
def left (frames : List Frame) : ℕ :=
  (frames.map fun f => f.route.fallbacks.length - f.next + 1).sum

/-- The stack after the next fallback that is offered, which is the first one of the highest frame
whose conditions are met. -/
def nextFrames : List Frame → List Frame × Option FallbackStep
  | [] => ([], none)
  | top :: prior =>
    if h : top.next < top.route.fallbacks.length then
      let fallback := top.route.fallbacks[top.next]
      let frame := { top with next := top.next + 1 }
      let met := fallback.met top.conditions
      if met = [] then nextFrames (frame :: prior)
      else (frame :: prior, some ⟨top.route.slug, fallback.route, met⟩)
    else nextFrames prior
termination_by frames => left frames
decreasing_by
  all_goals
    simp only [left, List.map_cons, List.sum_cons]
    omega

def next (w : RouteWalk) : RouteWalk × Option FallbackStep :=
  ({ w with frames := (nextFrames w.frames).1 }, (nextFrames w.frames).2)

def pending (w : RouteWalk) : List FallbackStep :=
  (w.failed []).frames.flatMap fun f =>
    (f.route.fallbacks.drop f.next).map fun fallback => ⟨f.route.slug, fallback.route, fallback.on⟩

end RouteWalk

/-! ## What is offered -/

/-- The fallbacks a frame still offers. -/
def Frame.due (f : Frame) : List FallbackStep :=
  (f.route.fallbacks.drop f.next).filterMap fun fallback =>
    if fallback.met f.conditions = [] then none
    else some ⟨f.route.slug, fallback.route, fallback.met f.conditions⟩

def RouteWalk.due (w : RouteWalk) : List FallbackStep := w.frames.flatMap Frame.due

/-- A step is offered by a frame of the stack; those above it have nothing left. -/
structure Offers (frames frames' : List Frame) (step : FallbackStep) : Prop where
  offered : ∃ above f below k fallback, frames = above ++ f :: below ∧
    frames' = { f with next := k + 1 } :: below ∧ f.next ≤ k ∧
    f.route.fallbacks[k]? = some fallback ∧ fallback.met f.conditions ≠ [] ∧
    step = ⟨f.route.slug, fallback.route, fallback.met f.conditions⟩
  due : frames.flatMap Frame.due = step :: frames'.flatMap Frame.due

theorem Frame.due_of_lt {f : Frame} (h : f.next < f.route.fallbacks.length) :
    f.due = (if f.route.fallbacks[f.next].met f.conditions = [] then []
      else [⟨f.route.slug, f.route.fallbacks[f.next].route,
        f.route.fallbacks[f.next].met f.conditions⟩]) ++
          Frame.due { f with next := f.next + 1 } := by
  rw [Frame.due, drop_eq_getElem_cons h, filterMap_cons]
  by_cases hmet : f.route.fallbacks[f.next].met f.conditions = []
  · rw [if_pos hmet, if_pos hmet]
    rfl
  · rw [if_neg hmet, if_neg hmet]
    rfl

theorem Frame.due_of_le {f : Frame} (h : f.route.fallbacks.length ≤ f.next) : f.due = [] := by
  rw [Frame.due, drop_eq_nil_of_le h]
  rfl

/-- `Next` offers the first fallback that is due, and ends when there is none. -/
theorem nextFrames_cases (frames : List Frame) :
    (RouteWalk.nextFrames frames).2 = none ∧ frames.flatMap Frame.due = [] ∨
      ∃ step, (RouteWalk.nextFrames frames).2 = some step ∧
        Offers frames (RouteWalk.nextFrames frames).1 step := by
  fun_induction RouteWalk.nextFrames frames with
  | case1 => exact .inl ⟨rfl, rfl⟩
  | case2 top prior h fallback frame met hmet ih =>
    -- the fallback is passed over
    have hdue : (top :: prior).flatMap Frame.due = (frame :: prior).flatMap Frame.due := by
      rw [flatMap_cons, flatMap_cons, Frame.due_of_lt h, if_pos hmet]
      rfl
    rw [hdue]
    rcases ih with hnone | ⟨step, hstep, ⟨above, f, below, k, fb, hsplit, hrest⟩, hd⟩
    · exact .inl hnone
    · refine .inr ⟨step, hstep, ?_, hdue ▸ hd⟩
      cases above with
      | nil =>
        cases hsplit
        obtain ⟨hframes, hle, hget⟩ := hrest
        exact ⟨[], top, prior, k, fb, rfl, hframes, Nat.le_of_succ_le hle, hget⟩
      | cons a above =>
        obtain ⟨-, rfl⟩ := List.cons.inj hsplit
        exact ⟨top :: above, f, below, k, fb, rfl, hrest⟩
  | case3 top prior h fallback frame met hmet =>
    refine .inr
      ⟨_, rfl, ⟨[], top, prior, top.next, fallback, rfl, rfl, Nat.le_refl _, ?_, hmet, rfl⟩, ?_⟩
    · exact getElem?_eq_getElem h
    · rw [flatMap_cons, Frame.due_of_lt h, if_neg hmet]
      rfl
  | case4 top prior h ih =>
    have hdue : (top :: prior).flatMap Frame.due = prior.flatMap Frame.due := by
      rw [flatMap_cons, Frame.due_of_le (Nat.le_of_not_lt h), nil_append]
    rcases ih with ⟨hnone, hnil⟩ | ⟨step, hstep, ⟨above, f, below, k, fb, rfl, hrest⟩, hd⟩
    · exact .inl ⟨hnone, hdue.trans hnil⟩
    · exact .inr ⟨step, hstep, ⟨top :: above, f, below, k, fb, rfl, hrest⟩, hdue.trans hd⟩

theorem nextFrames_eq_nil {frames : List Frame} (h : (RouteWalk.nextFrames frames).2 = none) :
    (RouteWalk.nextFrames frames).1 = [] := by
  fun_induction RouteWalk.nextFrames frames <;> simp_all

/-! ## What a failure adds -/

/-- The routes of a trail that get a frame, when those of the given names have one. -/
def unpushed : List String → List Route → List Route
  | _, [] => []
  | on, route :: routes =>
    if route.fallbacks = [] ∨ route.slug ∈ on then unpushed on routes
    else route :: unpushed (route.slug :: on) routes

theorem appendWalkFrames_eq (routes : List Route) (conditions : List Condition) :
    ∀ frames, appendWalkFrames frames routes conditions =
      ((unpushed (slugsOf frames) routes).map fun r => ⟨r, conditions, 0⟩).reverse ++ frames := by
  induction routes with
  | nil => exact fun _ => rfl
  | cons r routes ih =>
    intro frames
    rw [appendWalkFrames, unpushed]
    by_cases h : r.fallbacks = [] ∨ r.slug ∈ slugsOf frames
    · rw [if_pos h, if_pos h, ih]
    · rw [if_neg h, if_neg h, ih]
      simp [slugsOf]

variable {on : List String}

variable {routes : List Route}

theorem mem_of_mem_unpushed {r : Route} (h : r ∈ unpushed on routes) : r ∈ routes := by
  induction routes generalizing on with
  | nil => exact h
  | cons s routes ih =>
    rw [unpushed] at h
    split at h
    · exact mem_cons_of_mem _ (ih h)
    · exact (mem_cons.mp h).elim (· ▸ mem_cons_self) fun h => mem_cons_of_mem _ (ih h)

/-- What a route offers after it failed under conditions. -/
def Route.due (r : Route) (conditions : List Condition) : List FallbackStep :=
  Frame.due ⟨r, conditions, 0⟩

/-- A fallback by the route that declared it and the route it names. -/
def FallbackStep.key (s : FallbackStep) : String × String := (s.declaredBy, s.route)

end Olp.Routing
