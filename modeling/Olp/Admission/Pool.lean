import Mathlib.Logic.Function.Basic
import Mathlib.Data.Int.Notation
import Mathlib.Data.Nat.Notation

/-!
# The admission pool

A pool admits at most `capacity` requests at a time.  A request that finds it full takes a position
in the queue and waits in the line of its priority class, until a released slot is handed to it or
it gives up.

Calls on the pool run concurrently.  Each is modelled by the point it has reached, and takes one
atomic step at a time: a send to or a receive from the semaphore, an update of a counter, an
operation on the lines under the queue's lock, or a send to or a receive from a waiter's channel.
The semaphore is a count of the slots taken.  A call of `Await` makes at most one waiter, so the
waiter and its channel are named after the call.
-/

namespace Olp.Admission

open Function

/-- The priority classes, in the order of their rank. -/
inductive Class
  | critical
  | high
  | normal
  | low
  deriving DecidableEq, Repr

def Class.all : List Class := [.critical, .high, .normal, .low]

def Class.weight : Class → ℤ
  | .critical => 8
  | .high => 4
  | .normal => 2
  | .low => 1

/-- A class given by its rank; any other number is normal. -/
def Class.ofRank (rank : ℤ) : Class :=
  if rank = 0 then .critical else if rank = 1 then .high else if rank = 3 then .low else .normal

inductive PermitState
  | released
  | held
  | queued
  deriving DecidableEq, Repr

/-- The point a call has reached: what it does next.  Permits are numbered in the order they are
made.  A release of the pool's (`pool…`) is part of a release of a permit, or of the `Await` of a
permit, to which it then goes on. -/
inductive Pc
  /-- `Enter`, or `AcquirePermit` when it may not queue: the select of `tryAcquire`. -/
  | enterTry (mayQueue : Bool)
  /-- `admitted.Add(1)`, with a slot. -/
  | enterCount
  /-- `p.permit(permitHeld)`. -/
  | enterHeld
  /-- `reserved.Add(1)`, and the comparison with the depth. -/
  | enterReserve
  /-- `p.permit(permitQueued)`. -/
  | enterQueued
  /-- `reserved.Add(-1)`. -/
  | enterUnreserve
  /-- `rejected.Add(1)`. -/
  | enterReject
  /-- `Await`: is the permit queued? -/
  | awaitLoad (permit : ℕ) (cls : Class)
  /-- It is not: is it held? -/
  | awaitReload (permit : ℕ)
  /-- The select of the first `tryAcquire`. -/
  | awaitTry (permit : ℕ) (cls : Class)
  /-- `admitted.Add(1)`. -/
  | awaitCount (permit : ℕ)
  /-- Lock, and append the waiter to its line. -/
  | awaitJoin (permit : ℕ) (cls : Class)
  /-- `waiting.Add(1)`, and unlock. -/
  | awaitJoined (permit : ℕ) (cls : Class)
  /-- The select of the second `tryAcquire`. -/
  | awaitRetry (permit : ℕ) (cls : Class)
  /-- `admitted.Add(1)`. -/
  | awaitRetryCount (permit : ℕ) (cls : Class)
  /-- `withdraw`, having taken a slot: lock, and remove the waiter from its line if it is there. -/
  | awaitRetire (permit : ℕ) (cls : Class)
  /-- `left`, and unlock. -/
  | awaitRetired (permit : ℕ) (cls : Class)
  /-- `<-w.granted`, having taken a slot: one of the two goes back. -/
  | awaitSpare (permit : ℕ)
  /-- The select on the grant, the timer and the context. -/
  | awaitSelect (permit : ℕ) (cls : Class)
  /-- `withdraw`, after the timer or the context: lock, and remove the waiter if it is there. -/
  | awaitWithdraw (permit : ℕ) (cls : Class)
  /-- `left`, and unlock. -/
  | awaitWithdrawn (cls : Class)
  /-- `<-w.granted`: the handoff won the race. -/
  | awaitGranted (permit : ℕ)
  /-- `p.state.Store(permitHeld)`. -/
  | awaitHeld (permit : ℕ)
  /-- `reserved.Add(-1)`. -/
  | awaitUnreserve
  /-- `Permit.Release`: `p.state.Swap(permitReleased)`. -/
  | releaseSwap (permit : ℕ)
  /-- `reserved.Add(-1)`. -/
  | releaseUnreserve
  /-- `Pool.Release`: `q.waiting.Load() > 0`. -/
  | poolLoad (next : Option ℕ)
  /-- `handoff`: lock, and take the first waiter of the line that `next` picks. -/
  | poolHandoff (next : Option ℕ)
  /-- `left`, and unlock. -/
  | poolLeft (next : Option ℕ) (cls : Class) (waiter : ℕ)
  /-- `w.granted <- struct{}{}`. -/
  | poolGrant (next : Option ℕ) (waiter : ℕ)
  /-- `admitted.Add(-1)`. -/
  | poolUncount (next : Option ℕ)
  /-- `<-p.sem`. -/
  | poolFree (next : Option ℕ)
  /-- `q == nil || q.waiting.Load() == 0`. -/
  | poolReload (next : Option ℕ)
  /-- The select of `tryAcquire`. -/
  | poolRetake (next : Option ℕ)
  /-- `admitted.Add(1)`. -/
  | poolRecount (next : Option ℕ)
  /-- `Transfer`: `CompareAndSwap(permitHeld, permitReleased)`. -/
  | transferSwap (permit : ℕ)
  /-- `p.pool.permit(permitHeld)`. -/
  | transferHeld
  /-- The call has returned: a permit or none, or what it reports. -/
  | returned (ok : Bool)
  deriving DecidableEq, Repr

/-- A call, and the channel of its waiter, which holds at most one grant. -/
structure Call where
  pc : Pc
  granted : Bool
  deriving DecidableEq, Repr

structure Pool where
  capacity : ℕ
  /-- The depth of the queue, if there is one. -/
  depth : Option ℕ
  sem : ℕ
  admitted : ℤ
  rejected : ℕ
  reserved : ℤ
  waiting : ℤ
  /-- The call that holds the queue's lock. -/
  mu : Option ℕ
  lines : Class → List ℕ
  credit : Class → ℤ
  permits : List PermitState
  calls : List Call

/-- `NewPool(capacity).Queue(depth, timeout)`. -/
def Pool.new (capacity : ℕ) (depth : Option ℕ) : Pool where
  capacity := capacity
  depth := depth
  sem := 0
  admitted := 0
  rejected := 0
  reserved := 0
  waiting := 0
  mu := none
  lines := fun _ => []
  credit := fun _ => 0
  permits := []
  calls := []

/-! ## Picking a line -/

/-- The variables of the loop in `next`. -/
structure Pick where
  best : Option Class
  total : ℤ
  credit : Class → ℤ

def Pick.visit (lines : Class → List ℕ) (s : Pick) (cls : Class) : Pick :=
  if (lines cls).isEmpty then s
  else
    let credit := update s.credit cls (s.credit cls + cls.weight)
    { best :=
        match s.best with
        | none => some cls
        | some best => if credit cls > credit best then some cls else some best
      total := s.total + cls.weight
      credit := credit }

/-- `next`: smooth weighted round-robin over the lines that are not empty. -/
def Pool.next (p : Pool) : Option Class × (Class → ℤ) :=
  let s := Class.all.foldl (Pick.visit p.lines) ⟨none, 0, p.credit⟩
  match s.best with
  | none => (none, s.credit)
  | some best => (some best, update s.credit best (s.credit best - s.total))

/-- `left`, and the unlock after it. -/
def Pool.left (p : Pool) (cls : Class) : Pool :=
  { p with
    waiting := p.waiting - 1
    credit := if (p.lines cls).isEmpty then update p.credit cls 0 else p.credit
    mu := none }

/-! ## Steps -/

def Pool.move (p : Pool) (i : ℕ) (c : Call) (pc : Pc) : Pool :=
  { p with calls := p.calls.set i { c with pc } }

/-- Where a call goes on after the pool's `Release`. -/
def Pc.afterRelease : Option ℕ → Pc
  | none => .returned true
  | some permit => .awaitHeld permit

/-- One step of a call; none while it has to wait. -/
def Pool.advance (p : Pool) (i : ℕ) (c : Call) : Option Pool :=
  match c.pc with
  | .enterTry mayQueue =>
    if p.sem < p.capacity then some ({ p with sem := p.sem + 1 }.move i c .enterCount)
    else if mayQueue && p.depth.isSome then some (p.move i c .enterReserve)
    else some (p.move i c .enterReject)
  | .enterCount => some ({ p with admitted := p.admitted + 1 }.move i c .enterHeld)
  | .enterHeld =>
      some ({ p with permits := p.permits ++ [PermitState.held] }.move i c (.returned true))
  | .enterReserve =>
    let p := { p with reserved := p.reserved + 1 }
    if p.reserved ≤ p.depth.getD 0 then some (p.move i c .enterQueued)
    else some (p.move i c .enterUnreserve)
  | .enterQueued =>
      some ({ p with permits := p.permits ++ [PermitState.queued] }.move i c (.returned true))
  | .enterUnreserve => some ({ p with reserved := p.reserved - 1 }.move i c .enterReject)
  | .enterReject => some ({ p with rejected := p.rejected + 1 }.move i c (.returned false))
  | .awaitLoad permit cls =>
    if p.permits[permit]? = some .queued then some (p.move i c (.awaitTry permit cls))
    else some (p.move i c (.awaitReload permit))
  | .awaitReload permit =>
    some (p.move i c (.returned (p.permits[permit]? = some .held)))
  | .awaitTry permit cls =>
    if p.sem < p.capacity then some ({ p with sem := p.sem + 1 }.move i c (.awaitCount permit))
    else some (p.move i c (.awaitJoin permit cls))
  | .awaitCount permit =>
    some ({ p with admitted := p.admitted + 1 }.move i c (.awaitHeld permit))
  | .awaitJoin permit cls =>
    if p.mu.isSome then none
    else
      let lines := update p.lines cls (p.lines cls ++ [i])
      some ({ p with mu := some i, lines }.move i c (.awaitJoined permit cls))
  | .awaitJoined permit cls =>
    some ({ p with waiting := p.waiting + 1, mu := none }.move i c (.awaitRetry permit cls))
  | .awaitRetry permit cls =>
    if p.sem < p.capacity then
      some ({ p with sem := p.sem + 1 }.move i c (.awaitRetryCount permit cls))
    else some (p.move i c (.awaitSelect permit cls))
  | .awaitRetryCount permit cls =>
    some ({ p with admitted := p.admitted + 1 }.move i c (.awaitRetire permit cls))
  | .awaitRetire permit cls =>
    if p.mu.isSome then none
    else if i ∈ p.lines cls then
      let lines := update p.lines cls ((p.lines cls).erase i)
      some ({ p with mu := some i, lines }.move i c (.awaitRetired permit cls))
    else some (p.move i c (.awaitSpare permit))
  | .awaitRetired permit cls => some ((p.left cls).move i c (.awaitHeld permit))
  | .awaitSpare permit =>
    if c.granted then
      some (p.move i { c with granted := false } (.poolLoad (some permit)))
    else none
  | .awaitSelect permit _ =>
    if c.granted then some (p.move i { c with granted := false } (.awaitHeld permit)) else none
  | .awaitWithdraw permit cls =>
    if p.mu.isSome then none
    else if i ∈ p.lines cls then
      let lines := update p.lines cls ((p.lines cls).erase i)
      some ({ p with mu := some i, lines }.move i c (.awaitWithdrawn cls))
    else some (p.move i c (.awaitGranted permit))
  | .awaitWithdrawn cls => some ((p.left cls).move i c (.returned false))
  | .awaitGranted permit =>
    if c.granted then some (p.move i { c with granted := false } (.awaitHeld permit)) else none
  | .awaitHeld permit =>
    some ({ p with permits := p.permits.set permit .held }.move i c .awaitUnreserve)
  | .awaitUnreserve => some ({ p with reserved := p.reserved - 1 }.move i c (.returned true))
  | .releaseSwap permit =>
    let released := { p with permits := p.permits.set permit .released }
    match p.permits[permit]? with
    | some .held => some (released.move i c (.poolLoad none))
    | some .queued => some (released.move i c .releaseUnreserve)
    | _ => some (released.move i c (.returned true))
  | .releaseUnreserve => some ({ p with reserved := p.reserved - 1 }.move i c (.returned true))
  | .poolLoad next =>
    if p.depth.isSome ∧ 0 < p.waiting then some (p.move i c (.poolHandoff next))
    else some (p.move i c (.poolUncount next))
  | .poolHandoff next =>
    if p.mu.isSome then none
    else
      match p.next with
      | (none, _) => some (p.move i c (.poolUncount next))
      | (some cls, credit) =>
        match p.lines cls with
        | [] => none
        | waiter :: rest =>
          let lines := update p.lines cls rest
          some ({ p with mu := some i, lines, credit }.move i c (.poolLeft next cls waiter))
  | .poolLeft next cls waiter => some ((p.left cls).move i c (.poolGrant next waiter))
  | .poolGrant next waiter =>
    match p.calls[waiter]? with
    | some w =>
      if w.granted then none
      else
        let calls := p.calls.set waiter { w with granted := true }
        some ({ p with calls }.move i c (.afterRelease next))
    | none => none
  | .poolUncount next => some ({ p with admitted := p.admitted - 1 }.move i c (.poolFree next))
  | .poolFree next =>
    if 0 < p.sem then some ({ p with sem := p.sem - 1 }.move i c (.poolReload next)) else none
  | .poolReload next =>
    if p.depth.isNone ∨ p.waiting = 0 then some (p.move i c (.afterRelease next))
    else some (p.move i c (.poolRetake next))
  | .poolRetake next =>
    if p.sem < p.capacity then some ({ p with sem := p.sem + 1 }.move i c (.poolRecount next))
    else some (p.move i c (.afterRelease next))
  | .poolRecount next => some ({ p with admitted := p.admitted + 1 }.move i c (.poolLoad next))
  | .transferSwap permit =>
    if p.permits[permit]? = some .held then
      some ({ p with permits := p.permits.set permit .released }.move i c .transferHeld)
    else some (p.move i c (.returned false))
  | .transferHeld =>
      some ({ p with permits := p.permits ++ [PermitState.held] }.move i c (.returned true))
  | .returned _ => none

/-- A call that can be made. -/
inductive Request
  | enter
  | acquirePermit
  | await (permit : ℕ) (rank : ℤ)
  | release (permit : ℕ)
  | transfer (permit : ℕ)
  deriving DecidableEq, Repr

def Request.start : Request → Pc
  | .enter => .enterTry true
  | .acquirePermit => .enterTry false
  | .await permit rank => .awaitLoad permit (.ofRank rank)
  | .release permit => .releaseSwap permit
  | .transfer permit => .transferSwap permit

/-- What can happen next: a new call, a step of a call, or the timer or the context of a call that
waits. -/
inductive Action
  | call (r : Request)
  | go (i : ℕ)
  | expire (i : ℕ)
  deriving DecidableEq, Repr

/-- One action; none if it cannot happen. -/
def Pool.act (p : Pool) : Action → Option Pool
  | .call r => some { p with calls := p.calls ++ [⟨r.start, false⟩] }
  | .go i => p.calls[i]?.bind fun c => p.advance i c
  | .expire i => p.calls[i]?.bind fun c =>
    match c.pc with
    | .awaitSelect permit cls => some (p.move i c (.awaitWithdraw permit cls))
    | _ => none

/-- An interleaving, in which actions that cannot happen are passed over. -/
def Pool.step (p : Pool) (a : Action) : Pool := (p.act a).getD p

end Olp.Admission
