import Olp.Admission.Net
import Olp.Admission.Rotation

/-!
# Safety of the admission pool

`Pool.net` forgets all of a pool that does not concern slots and lines.  Every step of the pool is a
`Move` of its net, or leaves the net as it is (`advance_refines`), so that `Net.Inv` holds in every
state that calls on the pool can reach, as long as no two calls of `Await` run on one permit.
-/

namespace Olp.Admission

open List Option

/-! ## The net of a pool -/

/-- The slot that a call keeps for its permit while it releases another one. -/
def kept (next : Option ℕ) : ℕ := if next.isSome then 1 else 0

def Pc.agent (granted : Bool) : Pc → Agent
  | .enterCount | .enterHeld | .transferHeld => { Agent.idle with granted, slots := 1 }
  | .awaitTry k _ | .awaitJoin k _ => { Agent.idle with granted, entered := some k }
  | .awaitCount k | .awaitHeld k => { Agent.idle with granted, slots := 1, entered := some k }
  | .awaitJoined k c =>
    { Agent.idle with granted, joined := true, cls := some c, role := .joining, entered := some k }
  | .awaitRetry k c | .awaitWithdraw k c =>
    { Agent.idle with granted, joined := true, cls := some c, entered := some k }
  | .awaitRetryCount k c | .awaitRetire k c =>
    { Agent.idle with granted, slots := 1, joined := true, cls := some c, entered := some k }
  | .awaitRetired k _ =>
    { Agent.idle with granted, slots := 1, role := .leaving, entered := some k }
  | .awaitSpare k => { Agent.idle with granted, slots := 1, joined := true, entered := some k }
  | .awaitSelect k c =>
    { Agent.idle with granted, joined := true, cls := some c, selecting := true,
                      entered := some k }
  | .awaitWithdrawn _ => { Agent.idle with granted, role := .leaving }
  | .awaitGranted k => { Agent.idle with granted, joined := true, entered := some k }
  | .poolLoad next | .poolHandoff next | .poolUncount next | .poolFree next | .poolRecount next =>
    { Agent.idle with granted, slots := kept next + 1, entered := next }
  | .poolLeft next _ w =>
    { Agent.idle with granted, slots := kept next + 1, target := some w, role := .leaving,
                      entered := next }
  | .poolGrant next w =>
    { Agent.idle with granted, slots := kept next + 1, target := some w, entered := next }
  | .poolReload next | .poolRetake next =>
    { Agent.idle with granted, slots := kept next, freeing := true, entered := next }
  | _ => { Agent.idle with granted }

def Call.agent (c : Call) : Agent := c.pc.agent c.granted

def Pool.net (p : Pool) : Net where
  capacity := p.capacity
  sem := p.sem
  waiting := p.waiting
  mu := p.mu
  lines := p.lines
  permits := p.permits
  agents := p.calls.map Call.agent

theorem Pc.agent_ok (granted : Bool) (pc : Pc) : (pc.agent granted).Ok := by
  cases pc <;> exact ⟨by simp [Pc.agent, Agent.idle], by simp [Pc.agent, Agent.idle],
    by simp [Pc.agent, Agent.idle]⟩

theorem Pc.agent_afterRelease (granted : Bool) (next : Option ℕ) :
    (Pc.afterRelease next).agent granted =
      { Agent.idle with granted, slots := kept next, entered := next } := by
  cases next with
  | none => rfl
  | some k => rfl

/-- The step of a pool is a move of its net, or does not touch it. -/
def Refines (p p' : Pool) : Prop := p'.net = p.net ∨ Move p.net p'.net

section Refine

variable {p p' : Pool} {i : ℕ} {c : Call}

theorem net_agents (hc : p.calls[i]? = some c) : p.net.agents[i]? = some c.agent := by
  simp [Pool.net, hc]

theorem net_move (p : Pool) (i : ℕ) (c : Call) (pc : Pc) :
    (p.move i c pc).net = p.net.set i (pc.agent c.granted) := by
  simp [Pool.net, Pool.move, Net.set, map_set, Call.agent]

variable {pc : Pc}

theorem net_quiet (hc : p.calls[i]? = some c) (h : pc.agent c.granted = c.agent) :
    (p.move i c pc).net = p.net := by
  rw [net_move, h, Net.set]
  congr 1
  obtain ⟨hlt, he⟩ := List.getElem?_eq_some_iff.mp (net_agents hc)
  exact (congrArg (p.net.agents.set i) he.symm).trans (set_getElem_self hlt)

theorem refines_move {q : Pool} (h : Move p.net (q.net.set i (pc.agent c.granted))) :
    Refines p (q.move i c pc) :=
  .inr (by rwa [net_move])

theorem refines_kept {q : Pool} (hc : q.calls[i]? = some c) (hpc : pc.agent c.granted = c.agent)
    (h : Move p.net q.net) : Refines p (q.move i c pc) :=
  .inr (by rwa [net_quiet hc hpc])

/-- The permit that a call of `Await` runs on, until it has acquired a slot or given up. -/
def Pc.awaits : Pc → Option ℕ
  | .awaitLoad k _ => some k
  | pc => (pc.agent false).entered

theorem Pc.awaits_of_entered {g : Bool} {k : ℕ} (h : (pc.agent g).entered = some k) :
    pc.awaits = some k := by
  cases pc <;> first | exact h | cases h

/-- A pool without a queue has no waiters. -/
def Pc.queueless : Pc → Bool
  | .enterTry _ | .enterCount | .enterHeld | .enterReject | .awaitLoad _ _ | .awaitReload _
  | .releaseSwap _ | .poolLoad none | .poolUncount none | .poolFree none | .poolReload none
  | .transferSwap _ | .transferHeld | .returned _ => true
  | _ => false

structure Pool.Queueless (p : Pool) : Prop where
  waiting : p.waiting = 0
  permits : ∀ s ∈ p.permits, s ≠ .queued
  calls : ∀ c ∈ p.calls, c.pc.queueless = true

/-- What a step needs to be a move of the net. -/
structure Pool.Safe (p : Pool) : Prop where
  inv : p.net.Inv
  alone : ∀ (i : ℕ) c, p.calls[i]? = some c → ∀ k, c.pc.awaits = some k →
    ∀ (j : ℕ) d, p.calls[j]? = some d → d.pc.awaits = some k → i = j
  queueless : p.depth = none → p.Queueless

theorem Call.agent_eq (c : Call) : c.agent.granted = c.granted := by
  obtain ⟨pc, g⟩ := c
  cases pc <;> rfl

theorem Pc.agent_granted (pc : Pc) (g g' : Bool) :
    pc.agent g' = { pc.agent g with granted := g' } := by
  cases pc <;> rfl

theorem grant_target
    (hs : ∀ j, p.net.tickets j = countAt (fun a => a.joined.toNat) p.net.agents j)
    {next : Option ℕ} {w : ℕ} {g : Bool} (hc : p.calls[i]? = some ⟨.poolGrant next w, g⟩) :
    i ≠ w ∧ ∃ d, p.calls[w]? = some d ∧ d.granted = false := by
  have htarget : 0 < tally (Agent.targets w) p.net.agents := by
    refine Nat.lt_of_lt_of_le ?_ (le_tally (net_agents hc))
    simp [Call.agent, Pc.agent, Agent.targets]
  have ht := hs w
  unfold Net.tickets at ht
  obtain ⟨a, hw, hj⟩ := exists_of_countAt_pos (show 0 < countAt _ p.net.agents w by
    rw [← ht]
    omega)
  obtain ⟨d, hd, rfl⟩ := getElem?_map ▸ hw |> map_eq_some_iff.mp
  rw [countAt_of_some hw, countAt_of_some hw] at ht
  refine ⟨?_, d, hd, ?_⟩
  · rintro rfl
    cases hc.symm.trans hd
    simp [Call.agent, Pc.agent, Agent.idle] at hj
  · have hle := Bool.toNat_le d.agent.joined
    rw [← d.agent_eq]
    cases hg : d.agent.granted with
    | false => rfl
    | true =>
      rw [hg, Bool.toNat_true] at ht
      omega

theorem of_lock {o : Option Pool} (h : (if p.mu.isSome then none else o) = some p') :
    p.mu = none ∧ o = some p' := by
  split at h
  · cases h
  · next hlock => exact ⟨by simpa using hlock, h⟩

/-- What an `Await` does first decides whether calls stay alone on their permits; no other step
does. -/
theorem advance_refines
    (hs : ∀ j, p.net.tickets j = countAt (fun a => a.joined.toNat) p.net.agents j)
    (hq : p.depth = none → p.Queueless)
    (hload : ∀ k cls, c.pc = .awaitLoad k cls → p.permits[k]? = some .queued →
      Refines p (p.move i c (.awaitTry k cls)))
    (hc : p.calls[i]? = some c) (h : p.advance i c = some p') : Refines p p' := by
  have ha := net_agents hc
  obtain ⟨pc, g⟩ := c
  cases pc with simp only [Pool.advance] at h
  | enterTry mayQueue =>
    split at h
    · next room =>
        cases h
        exact refines_move (Move.take i _ ha room)
    · split at h <;> cases h <;> exact .inl (net_quiet hc rfl)
  | enterHeld =>
    cases h
    exact refines_move (Move.permitHeld i 0 _ ha rfl)
  | enterReserve =>
    split at h <;> cases h <;> exact .inl (net_quiet hc rfl)
  | enterQueued =>
    cases h
    exact refines_kept hc rfl Move.permitQueued
  | awaitLoad k cls =>
    split at h
    · next queued =>
        cases h
        exact hload k cls rfl queued
    · cases h
      exact .inl (net_quiet hc rfl)
  | awaitTry k cls =>
    split at h
    · next room =>
        cases h
        exact refines_move (Move.take i _ ha room)
    · cases h
      exact .inl (net_quiet hc rfl)
  | awaitJoin k cls =>
    obtain ⟨hmu, h⟩ := of_lock h
    cases h
    exact refines_move (Move.join i _ cls ha hmu rfl)
  | awaitJoined k cls =>
    cases h
    exact refines_move (Move.counted i _ ha rfl)
  | awaitRetry k cls =>
    split at h
    · next room =>
        cases h
        exact refines_move (Move.take i _ ha room)
    · next room =>
        cases h
        exact refines_move (Move.full i _ true ha room)
  | awaitRetire k cls =>
    obtain ⟨hmu, h⟩ := of_lock h
    split at h
    · next mem =>
        cases h
        exact refines_move
          (Move.withdraw i _ cls (some k) ha hmu mem rfl fun _ => id)
    · next mem =>
        cases h
        exact refines_move (Move.miss i _ cls ha rfl mem)
  | awaitRetired k cls =>
    cases h
    exact refines_move (Move.left i _ ha rfl)
  | awaitSpare k | awaitSelect k cls | awaitGranted k =>
    split at h
    · next hg =>
        cases h
        exact refines_move (Move.accept i _ ha hg rfl)
    · cases h
  | awaitWithdraw k cls =>
    obtain ⟨hmu, h⟩ := of_lock h
    split at h
    · next mem =>
        cases h
        exact refines_move
          (Move.withdraw i _ cls none ha hmu mem rfl fun _ h => by cases h)
    · next mem =>
        cases h
        exact refines_move (Move.miss i _ cls ha rfl mem)
  | awaitWithdrawn cls | poolLeft next cls w =>
    cases h
    exact refines_move (Move.left i _ ha rfl)
  | awaitHeld k =>
    cases h
    exact refines_move (Move.store i 0 k _ ha rfl rfl)
  | releaseSwap k =>
    split at h
    · next held =>
        cases h
        exact refines_move (Move.seize i k _ ha held)
    · next queued =>
        cases h
        exact refines_kept hc rfl (Move.release k fun held => by cases queued.symm.trans held)
    · next other _ =>
        cases h
        exact refines_kept hc rfl (Move.release k other)
  | poolLoad next =>
    split at h <;> cases h <;> exact .inl (net_quiet hc rfl)
  | poolHandoff next =>
    obtain ⟨hmu, h⟩ := of_lock h
    split at h
    · cases h
      exact .inl (net_quiet hc rfl)
    · next cls credit hnext =>
        split at h
        · cases h
        · next w rest line =>
            cases h
            exact refines_move
              (Move.pop i _ cls w rest ha hmu line rfl)
  | poolGrant next w =>
    obtain ⟨hne, d, hd, hg⟩ := grant_target hs hc
    simp only [hd, hg] at h
    cases h
    refine refines_move ?_
    rw [Pc.agent_afterRelease]
    have hnet : ({ p with calls := p.calls.set w { d with granted := true } } : Pool).net =
        p.net.set w { d.agent with granted := true } := by
      simp only [Pool.net, Net.set, map_set, Call.agent, d.pc.agent_granted d.granted true]
    rw [hnet]
    exact Move.grant i (kept next) w _ _ ha (net_agents hd) hne rfl rfl (d.agent_eq.trans hg)
  | poolFree next =>
    split at h
    · cases h
      exact refines_move (Move.free i (kept next) _ ha rfl rfl)
    · cases h
  | poolReload next =>
    split at h
    · next hw =>
        cases h
        refine refines_move ?_
        rw [Pc.agent_afterRelease]
        refine Move.unneeded i _ ha ?_
        rcases hw with hd | hw
        · exact (hq (by simpa using hd)).waiting
        · exact hw
    · cases h
      exact .inl (net_quiet hc rfl)
  | poolRetake next =>
    split at h
    · next room =>
        cases h
        exact refines_move (Move.take i _ ha room)
    · next room =>
        cases h
        refine refines_move ?_
        rw [Pc.agent_afterRelease]
        exact Move.full i _ false ha room
  | transferSwap k =>
    split at h
    · next held =>
        cases h
        exact refines_move (Move.seize i k _ ha held)
    · cases h
      exact .inl (net_quiet hc rfl)
  | transferHeld =>
    cases h
    exact refines_move (Move.permitHeld i 0 _ ha rfl)
  | returned ok => cases h
  | _ =>
    cases h
    exact .inl (net_quiet hc rfl)

theorem Pool.Safe.refines (hs : p.Safe) (hc : p.calls[i]? = some c)
    (h : p.advance i c = some p') : Refines p p' := by
  refine advance_refines hs.inv.tickets hs.queueless (fun k cls hpc queued => ?_) hc h
  obtain ⟨pc, g⟩ := c
  obtain rfl : pc = .awaitLoad k cls := hpc
  refine refines_move (Move.enter i k _ (net_agents hc) queued fun j b hb he => ?_)
  obtain ⟨d, hd, rfl⟩ := getElem?_map ▸ hb |> map_eq_some_iff.mp
  obtain rfl := hs.alone i _ hc k rfl j d hd (Pc.awaits_of_entered he)
  cases hc.symm.trans hd
  cases he

theorem Pc.awaits_afterRelease (next : Option ℕ) : (Pc.afterRelease next).awaits = next := by
  cases next with
  | none => rfl
  | some k => rfl

/-- No step makes a call run on a permit that it did not run on before. -/
theorem advance_awaits (hc : p.calls[i]? = some c) (h : p.advance i c = some p') :
    ∀ (j : ℕ) d, p'.calls[j]? = some d → ∀ k, d.pc.awaits = some k →
      ∃ e, p.calls[j]? = some e ∧ e.pc.awaits = some k := by
  have hkeep : ∀ (j : ℕ) d, p.calls[j]? = some d → ∀ k, d.pc.awaits = some k →
      ∃ e, p.calls[j]? = some e ∧ e.pc.awaits = some k := fun j d hd k hk => ⟨d, hd, hk⟩
  have hset : ∀ (q : Pool) (g : Bool) (pc : Pc), q.calls = p.calls →
      (∀ k, pc.awaits = some k → c.pc.awaits = some k) →
      ∀ (j : ℕ) d, (q.move i ⟨c.pc, g⟩ pc).calls[j]? = some d → ∀ k, d.pc.awaits = some k →
        ∃ e, p.calls[j]? = some e ∧ e.pc.awaits = some k := by
    intro q g pc hq hpc
    unfold Pool.move
    rw [hq]
    exact forall_set hkeep fun k hk => ⟨c, hc, hpc k hk⟩
  obtain ⟨pc, g⟩ := c
  cases pc with
  | poolGrant next w =>
    simp only [Pool.advance] at h
    split at h
    · next d hd =>
        split at h
        · cases h
        · cases h
          refine forall_set (forall_set hkeep fun k hk => ⟨d, hd, hk⟩) fun k hk => ?_
          exact ⟨_, hc, (Pc.awaits_afterRelease next).symm.trans hk⟩
    · cases h
  | _ =>
    simp only [Pool.advance] at h
    repeat' split at h
    all_goals
      first
      | cases h
        refine hset _ _ _ rfl fun k hk => ?_
        first
        | exact hk
        | cases hk
        | exact (Pc.awaits_afterRelease _).symm.trans hk
      | cases h

/-- Without a queue no call comes to wait. -/
theorem advance_queueless (hs : p.Queueless) (hd : p.depth = none) (hc : p.calls[i]? = some c)
    (h : p.advance i c = some p') : p'.Queueless := by
  have hpc := hs.calls c (mem_of_getElem? hc)
  obtain ⟨hw, hp, hcalls⟩ := hs
  have hset : ∀ pc : Pc, pc.queueless = true → ∀ d ∈ p.calls.set i ⟨pc, c.granted⟩,
      d.pc.queueless = true := by
    intro pc hpc d hd
    rcases mem_or_eq_of_mem_set hd with hd | rfl
    · exact hcalls d hd
    · exact hpc
  have hheld : ∀ s ∈ p.permits ++ [.held], s ≠ .queued := by
    intro s hs
    rcases mem_append.mp hs with hs | hs
    · exact hp s hs
    · rw [mem_singleton.mp hs]
      simp
  have hrelease : ∀ k, ∀ s ∈ p.permits.set k .released, s ≠ .queued := by
    intro k s hs
    rcases mem_or_eq_of_mem_set hs with hs | rfl
    · exact hp s hs
    · simp
  obtain ⟨pc, g⟩ := c
  cases pc with
  | enterTry mayQueue =>
    simp only [Pool.advance, hd, isSome_none, Bool.and_false] at h
    split at h <;> cases h <;> exact ⟨hw, hp, hset _ rfl⟩
  | enterCount | enterReject | awaitReload k =>
    cases h
    exact ⟨hw, hp, hset _ rfl⟩
  | enterHeld =>
    cases h
    exact ⟨hw, hheld, hset _ rfl⟩
  | awaitLoad k cls =>
    have hq : p.permits[k]? ≠ some .queued := fun hq => hp _ (mem_of_getElem? hq) rfl
    simp only [Pool.advance, hq, if_false] at h
    cases h
    exact ⟨hw, hp, hset _ rfl⟩
  | releaseSwap k =>
    simp only [Pool.advance] at h
    split at h
    · cases h
      exact ⟨hw, hrelease k, hset _ rfl⟩
    · next hq => exact absurd rfl (hp _ (mem_of_getElem? hq))
    · cases h
      exact ⟨hw, hrelease k, hset _ rfl⟩
  | poolLoad next | poolReload next =>
    simp only [Pool.advance, hd] at h
    cases h
    exact ⟨hw, hp, hset _ (by cases next <;> [rfl; cases hpc])⟩
  | poolUncount next =>
    cases h
    exact ⟨hw, hp, hset _ (by cases next <;> [rfl; cases hpc])⟩
  | poolFree next =>
    simp only [Pool.advance] at h
    split at h
    · cases h
      exact ⟨hw, hp, hset _ (by cases next <;> [rfl; cases hpc])⟩
    · cases h
  | transferSwap k =>
    simp only [Pool.advance] at h
    split at h <;> cases h
    · exact ⟨hw, hrelease k, hset _ rfl⟩
    · exact ⟨hw, hp, hset _ rfl⟩
  | transferHeld =>
    cases h
    exact ⟨hw, hheld, hset _ rfl⟩
  | returned ok => cases h
  | _ => cases hpc

theorem advance_fixed (h : p.advance i c = some p') :
    p'.capacity = p.capacity ∧ p'.depth = p.depth := by
  obtain ⟨pc, g⟩ := c
  cases pc
  all_goals
    simp only [Pool.advance] at h
    repeat' split at h
    all_goals
      first
      | cases h
        exact ⟨rfl, rfl⟩
      | cases h

end Refine

/-! ## Reachable states -/

/-- `Await` is not called on a permit that another `Await` is running on. -/
def Pool.AwaitsAlone (p : Pool) : Action → Prop
  | .call (.await k _) => ∀ c ∈ p.calls, c.pc.awaits ≠ some k
  | _ => True

instance (p : Pool) : ∀ a, Decidable (p.AwaitsAlone a)
  | .call (.await k _) => inferInstanceAs (Decidable (∀ c ∈ p.calls, c.pc.awaits ≠ some k))
  | .call .enter | .call .acquirePermit | .call (.release _) | .call (.transfer _) | .go _
  | .expire _ => inferInstanceAs (Decidable True)

section Reachable

variable {p p' : Pool} {a : Action}

theorem inv_of_refines (hs : p.net.Inv) (h : Refines p p') : p'.net.Inv := by
  rcases h with he | hm
  · rwa [he]
  · refine hm.inv hs fun i a ha => ?_
    obtain ⟨c, -, rfl⟩ := getElem?_map ▸ ha |> map_eq_some_iff.mp
    exact Pc.agent_ok c.granted c.pc

theorem alone_of_awaits (hs : p.Safe)
    (h : ∀ (j : ℕ) d, p'.calls[j]? = some d → ∀ k, d.pc.awaits = some k →
      ∃ e, p.calls[j]? = some e ∧ e.pc.awaits = some k) :
    ∀ (i : ℕ) c, p'.calls[i]? = some c → ∀ k, c.pc.awaits = some k →
      ∀ (j : ℕ) d, p'.calls[j]? = some d → d.pc.awaits = some k → i = j := by
  intro i c hc k hk j d hd hk'
  obtain ⟨x, hx, hxk⟩ := h i c hc k hk
  obtain ⟨y, hy, hyk⟩ := h j d hd k hk'
  exact hs.alone i x hx k hxk j y hy hyk

theorem call_alone (hs : p.Safe) {r : Request} (ha : p.AwaitsAlone (.call r)) :
    ∀ (i : ℕ) c, (p.calls ++ [⟨r.start, false⟩])[i]? = some c → ∀ k, c.pc.awaits = some k →
      ∀ (j : ℕ) d, (p.calls ++ [⟨r.start, false⟩])[j]? = some d → d.pc.awaits = some k → i = j := by
  have hnew : ∀ (j : ℕ) d k, p.calls[j]? = some d → d.pc.awaits = some k →
      r.start.awaits ≠ some k := by
    intro j d k hd hk hr
    cases r with
    | await k' rank =>
      cases hr
      exact ha d (mem_of_getElem? hd) hk
    | _ => cases hr
  intro i c hc k hk j d hd hk'
  rw [getElem?_append] at hc hd
  split at hc <;> split at hd
  · exact hs.alone i c hc k hk j d hd hk'
  · obtain rfl := mem_singleton.mp (mem_of_getElem? hd)
    exact absurd hk' (hnew i c k hc hk)
  · obtain rfl := mem_singleton.mp (mem_of_getElem? hc)
    exact absurd hk (hnew j d k hd hk')
  · obtain ⟨hi, -⟩ := List.getElem?_eq_some_iff.mp hc
    obtain ⟨hj, -⟩ := List.getElem?_eq_some_iff.mp hd
    simp only [length_singleton] at hi hj
    omega

theorem act_queueless (hs : p.depth = none → p.Queueless) (h : p.act a = some p') :
    p'.depth = none → p'.Queueless := by
  intro hd
  cases a with
  | call r =>
    cases h
    obtain ⟨hw, hp, hc⟩ := hs hd
    refine ⟨hw, hp, fun c hmem => ?_⟩
    rcases mem_append.mp hmem with hmem | hmem
    · exact hc c hmem
    · obtain rfl := mem_singleton.mp hmem
      cases r <;> rfl
  | go i =>
    obtain ⟨c, hc, h⟩ := bind_eq_some_iff.mp h
    rw [(advance_fixed h).2] at hd
    exact advance_queueless (hs hd) hd hc h
  | expire i =>
    obtain ⟨⟨pc, g⟩, hc, h⟩ := bind_eq_some_iff.mp h
    cases pc with
    | awaitSelect k cls =>
      cases h
      have := (hs hd).calls _ (mem_of_getElem? hc)
      cases this
    | _ => cases h

theorem call_refines (p : Pool) (r : Request) :
    Refines p { p with calls := p.calls ++ [⟨r.start, false⟩] } := by
  have hidle : (⟨r.start, false⟩ : Call).agent = .idle := by cases r <;> rfl
  have hm := Move.call (n := p.net)
  rw [← hidle] at hm
  exact .inr (by simpa [Pool.net] using hm)

theorem act_safe (hs : p.Safe) (ha : p.AwaitsAlone a) (h : p.act a = some p') : p'.Safe := by
  have hq := act_queueless hs.queueless h
  cases a with
  | call r =>
    cases h
    exact ⟨inv_of_refines hs.inv (call_refines p r), call_alone hs ha, hq⟩
  | go i =>
    obtain ⟨c, hc, h⟩ := bind_eq_some_iff.mp h
    exact ⟨inv_of_refines hs.inv (hs.refines hc h), alone_of_awaits hs (advance_awaits hc h), hq⟩
  | expire i =>
    obtain ⟨⟨pc, g⟩, hc, h⟩ := bind_eq_some_iff.mp h
    cases pc with
    | awaitSelect k cls =>
      cases h
      refine ⟨inv_of_refines hs.inv (refines_move (Move.expire i _ (net_agents hc))), ?_, hq⟩
      refine alone_of_awaits hs (forall_set (fun j d hd k hk => ⟨d, hd, hk⟩) ?_)
      exact fun k hk => ⟨_, hc, hk⟩
    | _ => cases h

theorem new_safe (capacity : ℕ) (depth : Option ℕ) : (Pool.new capacity depth).Safe where
  inv :=
    { sem_le := Nat.zero_le _
      owned := rfl
      tickets := fun _ => rfl
      lined := fun _ _ hj => by cases hj
      role := fun _ _ h => by cases h
      counted := rfl
      wake := by
        rintro ⟨j, a, c, hj, -⟩
        cases hj
      entered := fun _ _ h => by cases h
      alone := fun _ _ h => by cases h }
  alone := fun _ _ h => by cases h
  queueless := fun _ => ⟨rfl, nofun, (fun _ h => by cases h)⟩

/-- The line that `next` picks has a waiter. -/
theorem next_line {cls : Class} (h : p.next.1 = some cls) : p.lines cls ≠ [] := by
  rcases next_spec p with ⟨-, hnext⟩ | ⟨b, credit, hnext, hturn, -⟩
  · rw [hnext] at h
    cases h
  · rw [hnext] at h
    cases h
    exact mem_backlog.mp hturn.mem

/-! ## Quiescent states -/

def Pool.Quiescent (p : Pool) : Prop := ∀ i, p.act (.go i) = none

variable {c : Call} {i : ℕ}

theorem advance_eq_none (hq : p.Quiescent) (hc : p.calls[i]? = some c) : p.advance i c = none := by
  have := hq i
  rwa [Pool.act, hc, bind_some] at this

theorem mu_eq_none (hs : p.Safe) (hq : p.Quiescent) : p.mu = none := by
  cases hmu : p.mu with
  | none => rfl
  | some i =>
    have hcount := hs.inv.counted
    unfold Net.Counted at hcount
    rw [show p.net.mu = some i from hmu] at hcount
    obtain ⟨a, ha, hrole⟩ := hcount
    obtain ⟨⟨pc, g⟩, hc, rfl⟩ := getElem?_map ▸ ha |> map_eq_some_iff.mp
    have hadv := advance_eq_none hq hc
    have hne : (Call.agent ⟨pc, g⟩).role ≠ .none := by
      rcases hrole with ⟨hr, -⟩ | ⟨hr, -⟩ <;> simp [hr]
    cases pc with
    | awaitJoined k cls | awaitRetired k cls | awaitWithdrawn cls | poolLeft next cls w =>
      cases hadv
    | _ => exact absurd rfl hne

theorem granted_of_handed (hs : p.Safe) (hq : p.Quiescent) (hc : p.calls[i]? = some c)
    (hj : c.agent.joined = true) (hcls : c.agent.cls = none) :
    c.granted = true := by
  have ht := hs.inv.tickets i
  unfold Net.tickets at ht
  rw [countAt_of_some (net_agents hc), countAt_of_some (net_agents hc), hj, c.agent_eq] at ht
  have hline : (total fun d => (p.net.lines d).count i) = 0 := by
    have : ∀ d, (p.net.lines d).count i = 0 := by
      intro d
      refine count_eq_zero.mpr fun hmem => ?_
      obtain ⟨a, ha, hac⟩ := hs.inv.lined d i hmem
      cases (net_agents hc).symm.trans ha
      cases hcls.symm.trans hac
    simp [total, this]
  by_contra hg
  have hpos : 0 < tally (Agent.targets i) p.net.agents := by
    simp only [Bool.not_eq_true] at hg
    simp only [hline, hg, Bool.toNat_false, Bool.toNat_true] at ht
    omega
  obtain ⟨j, a, ha, htarget⟩ := exists_of_tally_pos hpos
  obtain ⟨⟨pc, g⟩, hd, rfl⟩ := getElem?_map ▸ ha |> map_eq_some_iff.mp
  have hadv := advance_eq_none hq hd
  cases pc with
  | poolLeft next cls w => cases hadv
  | poolGrant next w =>
    obtain ⟨-, e, he, heg⟩ := grant_target hs.inv.tickets hd
    simp [Pool.advance, he, heg] at hadv
  | _ => simp [Call.agent, Pc.agent, Agent.targets, Agent.idle] at htarget

/-- In a quiescent state a call has returned, or waits for a grant that has not been sent. -/
theorem quiescent_call (hs : p.Safe) (hq : p.Quiescent) (hc : p.calls[i]? = some c) :
    (∃ ok, c.pc = .returned ok) ∨ ∃ k cls, c.pc = .awaitSelect k cls ∧ c.granted = false := by
  have hadv := advance_eq_none hq hc
  have hmu := mu_eq_none hs hq
  have hgranted := granted_of_handed hs hq hc
  obtain ⟨pc, g⟩ := c
  cases pc with
  | returned ok => exact .inl ⟨ok, rfl⟩
  | awaitSelect k cls =>
    refine .inr ⟨k, cls, rfl, ?_⟩
    cases g with
    | false => rfl
    | true => cases hadv
  | awaitSpare k | awaitGranted k =>
    obtain rfl : g = true := hgranted rfl rfl
    cases hadv
  | poolHandoff next =>
    simp only [Pool.advance, hmu, isSome_none] at hadv
    split at hadv
    · next h => cases h
    · split at hadv
      · cases hadv
      · next cls credit hnext =>
          split at hadv
          · next hl => exact absurd hl (next_line (congrArg Prod.fst hnext))
          · cases hadv
  | poolGrant next w =>
    obtain ⟨-, e, he, heg⟩ := grant_target hs.inv.tickets hc
    simp [Pool.advance, he, heg] at hadv
  | poolFree next =>
    -- the slot in the call's hands is taken
    have hle := le_tally (f := Agent.carried) (net_agents hc)
    have howned := hs.inv.owned
    have hpos : 0 < p.sem := by
      simp only [Call.agent, Pc.agent, Agent.carried, Agent.idle] at hle
      simp only [Net.inTransit, Pool.net] at *
      omega
    simp [Pool.advance, hpos] at hadv
  | _ =>
    simp only [Pool.advance, hmu, isSome_none] at hadv
    repeat' split at hadv
    all_goals contradiction

/-- Every atomic step of a call keeps the pool safe, if no two calls await one permit. -/
theorem step_safe (hs : p.Safe) (ha : p.AwaitsAlone a) : (p.step a).Safe := by
  unfold Pool.step
  cases h : p.act a with
  | none => exact hs
  | some p' => exact act_safe hs ha h

theorem step_capacity (p : Pool) (a : Action) : (p.step a).capacity = p.capacity := by
  unfold Pool.step
  cases h : p.act a with
  | none => rfl
  | some p' =>
    cases a with
    | call r =>
      cases h
      rfl
    | go i =>
      obtain ⟨c, -, h⟩ := bind_eq_some_iff.mp h
      exact (advance_fixed h).1
    | expire i =>
      obtain ⟨⟨pc, g⟩, -, h⟩ := bind_eq_some_iff.mp h
      cases pc with
      | awaitSelect k cls =>
        cases h
        rfl
      | _ => cases h

end Reachable

def Pool.held (p : Pool) : ℕ := p.permits.count .held

/-- The slots in the hands of a call, and the grant in the channel of its waiter. -/
def Call.carried (c : Call) : ℕ := c.agent.slots + c.granted.toNat

def Pool.inTransit (p : Pool) : ℕ := tally Call.carried p.calls

section Safe

variable {p : Pool}

theorem net_held (p : Pool) : p.net.held = p.held := by
  unfold Net.held Pool.held Pool.net
  induction p.permits with
  | nil => rfl
  | cons s l ih => cases s <;> simp [PermitState.slots, ih, Nat.add_comm]

theorem net_inTransit (p : Pool) : p.net.inTransit = p.inTransit := by
  unfold Net.inTransit Pool.inTransit Pool.net
  induction p.calls with
  | nil => rfl
  | cons c l ih => simp only [map_cons, tally_cons, ih, Call.carried, Agent.carried, c.agent_eq]

/-- Every place in the semaphore belongs to a permit or to a call on its way. -/
theorem Pool.Safe.sem_eq (hs : p.Safe) : p.sem = p.held + p.inTransit := by
  have := hs.inv.owned
  rw [net_held, net_inTransit] at this
  rw [Nat.add_comm]
  exact this

/-- A quiescent state in which a call waits in a line has no slot to spare. -/
theorem Pool.Safe.full (hs : p.Safe) (hq : p.Quiescent) {c : Class} (hc : p.lines c ≠ []) :
    p.sem = p.capacity ∧ p.held = p.capacity := by
  have hidle : ∀ (i : ℕ) d, p.calls[i]? = some d → d.carried = 0 ∧ d.agent.freeing = false := by
    intro i d hd
    rcases quiescent_call hs hq hd with ⟨ok, hpc⟩ | ⟨k, cls, hpc, hg⟩
    · -- a grant in the channel of a call that has returned would be a ticket without a waiter
      have ht := hs.inv.tickets i
      unfold Net.tickets at ht
      rw [countAt_of_some (net_agents hd), countAt_of_some (net_agents hd), d.agent_eq] at ht
      obtain ⟨pc, g⟩ := d
      obtain rfl : pc = .returned ok := hpc
      have hj : (Call.agent ⟨.returned ok, g⟩).joined = false := rfl
      rw [hj, Bool.toNat_false] at ht
      refine ⟨?_, rfl⟩
      have hslots : (Call.agent ⟨.returned ok, g⟩).slots = 0 := rfl
      simp only [Call.carried, hslots] at ht ⊢
      omega
    · obtain ⟨pc, g⟩ := d
      obtain rfl : pc = .awaitSelect k cls := hpc
      obtain rfl : g = false := hg
      exact ⟨rfl, rfl⟩
  obtain ⟨j, hj⟩ := exists_mem_of_ne_nil _ hc
  obtain ⟨a, ha, hcls⟩ := hs.inv.lined c j hj
  obtain ⟨d, hd, rfl⟩ := getElem?_map ▸ ha |> map_eq_some_iff.mp
  have hwaits : Waits p.net.agents p.net.lines := by
    refine ⟨j, d.agent, c, ha, ?_, hj⟩
    rcases quiescent_call hs hq hd with ⟨ok, hpc⟩ | ⟨k, cls, hpc, -⟩
    · rw [Call.agent, hpc] at hcls
      cases hcls
    · rw [Call.agent, hpc]
      rfl
  have hfreeing : p.net.freeing = 0 := by
    refine tally_eq_zero fun i a ha => ?_
    obtain ⟨d, hd, rfl⟩ := getElem?_map ▸ ha |> map_eq_some_iff.mp
    rw [(hidle i d hd).2, Bool.toNat_false]
  have htransit : p.inTransit = 0 := tally_eq_zero fun i d hd => (hidle i d hd).1
  have hwake := hs.inv.wake hwaits
  have hle := hs.inv.sem_le
  have hsem := hs.sem_eq
  simp only [Pool.net] at hwake hle
  change p.capacity ≤ p.sem + p.net.freeing at hwake
  omega

end Safe

/-- **The pool conserves its slots and loses no wake-up.**  In every state that an interleaving of
calls leads to, in which `Await` is not called on a permit that another `Await` is running on: at
most `capacity` slots are taken; each of them is that of one permit that reports held, or in the
hands of one call, or one grant in flight; and when no call can go on and one waits in a line, all
slots are taken, by permits. -/
theorem pool_safe (capacity : ℕ) (depth : Option ℕ) (actions : List Action)
    (h : Throughout Pool.step Pool.AwaitsAlone (Pool.new capacity depth) actions) :
    (run Pool.step (Pool.new capacity depth) actions).sem ≤ capacity ∧
      (run Pool.step (Pool.new capacity depth) actions).sem =
        (run Pool.step (Pool.new capacity depth) actions).held +
          (run Pool.step (Pool.new capacity depth) actions).inTransit ∧
      ((run Pool.step (Pool.new capacity depth) actions).Quiescent →
        (∃ c, (run Pool.step (Pool.new capacity depth) actions).lines c ≠ []) →
        (run Pool.step (Pool.new capacity depth) actions).sem = capacity ∧
          (run Pool.step (Pool.new capacity depth) actions).held = capacity) := by
  have hs : (run Pool.step (Pool.new capacity depth) actions).Safe :=
    run_invariant (fun _ _ hs ha => step_safe hs ha) h (new_safe capacity depth)
  have hcap : (run Pool.step (Pool.new capacity depth) actions).capacity = capacity := by
    refine run_induction (P := fun p : Pool => p.capacity = capacity) ?_ actions rfl
    intro p a hp
    rw [step_capacity, hp]
  refine ⟨?_, hs.sem_eq, fun hq hc => ?_⟩
  · exact hs.inv.sem_le.trans_eq hcap
  · obtain ⟨c, hc⟩ := hc
    have := hs.full hq hc
    rwa [hcap] at this

/-- One slot, taken by one request, and a second request that waits for it. -/
def sampleActions : List Action :=
  [.call .enter, .go 0, .go 0, .go 0, .call .enter, .go 1, .go 1, .go 1,
    .call (.await 1 0), .go 2, .go 2, .go 2, .go 2, .go 2]

theorem pool_safe_sample :
    Throughout Pool.step Pool.AwaitsAlone (Pool.new 1 (some 1)) sampleActions ∧
      (run Pool.step (Pool.new 1 (some 1)) sampleActions).sem ≤ 1 ∧
      (run Pool.step (Pool.new 1 (some 1)) sampleActions).lines .critical ≠ [] := by
  have h : Throughout Pool.step Pool.AwaitsAlone (Pool.new 1 (some 1)) sampleActions := by
    decide
  exact ⟨h, (pool_safe 1 (some 1) sampleActions h).1, by decide⟩

/-- Two calls of `Await` on one queued permit, between which both slots become free. -/
def twoAwaits : List Action :=
  [.call .enter, .go 0, .go 0, .go 0, .call .enter, .go 1, .go 1, .go 1,
    .call .enter, .go 2, .go 2, .go 2,
    .call (.await 2 2), .call (.await 2 2), .go 3, .go 4,
    .call (.release 0), .go 5, .go 5, .go 5, .go 5, .go 5,
    .call (.release 1), .go 6, .go 6, .go 6, .go 6, .go 6,
    .go 3, .go 3, .go 3, .go 3, .go 4, .go 4, .go 4, .go 4]

/-- Both take a slot, and the one permit that reports held has two. -/
theorem twoAwaits_two_slots :
    (run Pool.step (Pool.new 2 (some 1)) twoAwaits).permits = [.released, .released, .held] ∧
      (run Pool.step (Pool.new 2 (some 1)) twoAwaits).sem = 2 ∧
      (run Pool.step (Pool.new 2 (some 1)) twoAwaits).inTransit = 0 := by
  refine ⟨?_, ?_, ?_⟩ <;> decide

end Olp.Admission
