import Olp.Admission.Pool
import Olp.FairShare
import Olp.Run
import Mathlib.Algebra.Order.Field.Basic
import Mathlib.Tactic.FieldSimp
import Mathlib.Tactic.Ring

/-!
# The rotation of the lines

Joins, withdrawals and handoffs each run under the queue's lock, so that what happens to the lines
and their credits is a sequence of them.  A handoff is a turn of a smooth weighted round robin over
the lines that have a waiter (`next_spec`); a line that empties forgets its credit.
-/

namespace Olp.Admission

open Finset Function

/-- What happens to the lines under the lock. -/
inductive LineEvent
  | join (cls : Class) (waiter : ℕ)
  | withdraw (cls : Class) (waiter : ℕ)
  | handoff
  deriving DecidableEq, Repr

/-- A waiter is appended to its line, and counted. -/
def Pool.join (p : Pool) (cls : Class) (waiter : ℕ) : Pool :=
  { p with
    lines := update p.lines cls (p.lines cls ++ [waiter])
    waiting := p.waiting + 1 }

/-- `withdraw`. -/
def Pool.withdraw (p : Pool) (cls : Class) (waiter : ℕ) : Bool × Pool :=
  if waiter ∈ p.lines cls then
    (true, { p with lines := update p.lines cls ((p.lines cls).erase waiter) }.left cls)
  else (false, p)

/-- `handoff`: the line it serves and the waiter that gets the slot, if there is one. -/
def Pool.handoff (p : Pool) : Option (Class × ℕ) × Pool :=
  match p.next with
  | (none, _) => (none, p)
  | (some cls, credit) =>
    match p.lines cls with
    | [] => (none, p)
    | waiter :: rest =>
      (some (cls, waiter), { p with lines := update p.lines cls rest, credit }.left cls)

def Pool.lineStep (p : Pool) : LineEvent → Pool
  | .join cls waiter => p.join cls waiter
  | .withdraw cls waiter => (p.withdraw cls waiter).2
  | .handoff => p.handoff.2

/-- The waiter of a line that an event serves. -/
def Pool.serves (p : Pool) (cls : Class) : LineEvent → List ℕ
  | .handoff =>
    match p.handoff.1 with
    | some (best, waiter) => if best = cls then [waiter] else []
    | none => []
  | _ => []

/-- The waiters of a line that are served, in this order. -/
def Pool.served (p : Pool) (cls : Class) : List LineEvent → List ℕ
  | [] => []
  | e :: es => p.serves cls e ++ (p.lineStep e).served cls es

/-- The waiters that join a line, in this order. -/
def joins (cls : Class) : List LineEvent → List ℕ
  | [] => []
  | .join c waiter :: es => if c = cls then waiter :: joins cls es else joins cls es
  | _ :: es => joins cls es

def handoffs (es : List LineEvent) : ℕ := es.count .handoff

/-- The lines that have a waiter. -/
def Pool.backlog (p : Pool) : Finset Class :=
  (Class.all.filter fun cls => !(p.lines cls).isEmpty).toFinset

section Next

variable {p : Pool} {cls : Class}

theorem mem_backlog : cls ∈ p.backlog ↔ p.lines cls ≠ [] := by
  have hall : cls ∈ Class.all := by cases cls <;> decide
  simp [Pool.backlog, hall]

theorem weight_pos (cls : Class) : 0 < cls.weight := by cases cls <;> decide

theorem subset_all (S : Finset Class) : S ⊆ Class.all.toFinset := by
  intro cls _
  cases cls <;> decide

theorem sum_weight_le (S : Finset Class) : ∑ cls ∈ S, cls.weight ≤ 15 :=
  sum_le_sum_of_subset_of_nonneg (subset_all S) fun cls _ _ => (weight_pos cls).le

/-- The loop of `next`, after the lines with a waiter in `S`. -/
structure Pick.After (p : Pool) (S : Finset Class) (s : Pick) : Prop where
  credit : ∀ c, s.credit c = p.credit c + if c ∈ S then c.weight else 0
  total : s.total = ∑ c ∈ S, c.weight
  none : s.best = none → S = ∅
  best : ∀ b, s.best = some b → b ∈ S ∧ ∀ c ∈ S, c.weight + p.credit c ≤ b.weight + p.credit b

variable {S : Finset Class} {s : Pick}

theorem Pick.After.visit (h : s.After p S) (hcls : cls ∉ S) :
    (s.visit p.lines cls).After p (if (p.lines cls).isEmpty then S else insert cls S) := by
  unfold Pick.visit
  split
  · exact h
  have hnew : s.credit cls = p.credit cls := by rw [h.credit, if_neg hcls, add_zero]
  have hold : ∀ c ∈ S, s.credit c = c.weight + p.credit c := fun c hc => by
    rw [h.credit, if_pos hc, add_comm]
  have hne : ∀ c ∈ S, c ≠ cls := fun c hc he => hcls (he ▸ hc)
  refine ⟨fun c => ?_, ?_, fun hb => ?_, fun b hb => ?_⟩
  · by_cases hc : c = cls
    · subst hc
      simp [hnew]
    · simp [hc, h.credit]
  · dsimp only
    rw [sum_insert hcls, h.total, add_comm]
  · dsimp only at hb
    split at hb <;> [cases hb; split at hb <;> cases hb]
  · dsimp only at hb
    split at hb
    · next hbest =>
        cases hb
        simp [h.none hbest]
    · next best hbest =>
        obtain ⟨hmem, hmax⟩ := h.best best hbest
        rw [update_self, update_of_ne (hne best hmem), hnew, hold best hmem,
          add_comm] at hb
        split at hb <;> cases hb
        · next hlt =>
            refine ⟨mem_insert_self cls S, (forall_mem_insert ..).mpr ⟨le_rfl, fun c hc => ?_⟩⟩
            exact (hmax c hc).trans hlt.le
        · next hle =>
            exact ⟨mem_insert_of_mem hmem, (forall_mem_insert ..).mpr ⟨not_lt.mp hle, hmax⟩⟩

theorem Pick.After.foldl (l : List Class) (hl : l.Nodup) (h : s.After p S) (hS : ∀ c ∈ l, c ∉ S) :
    (l.foldl (Pick.visit p.lines) s).After p
      (S ∪ (l.filter fun cls => !(p.lines cls).isEmpty).toFinset) := by
  induction l generalizing s S with
  | nil => simpa using h
  | cons c l ih =>
    obtain ⟨hc, hl⟩ := List.nodup_cons.mp hl
    have hstep := h.visit (hS c List.mem_cons_self)
    have hrest := ih hl hstep fun d hd => ?_
    · refine (congrArg (Pick.After p · _) ?_).mp hrest
      by_cases hempty : (p.lines c).isEmpty
      · simp [hempty]
      · simp [hempty, insert_union]
    · have hdc : d ≠ c := fun he => hc (he ▸ hd)
      split <;> simp [hdc, hS d (List.mem_cons_of_mem c hd)]

theorem next_spec (p : Pool) :
    p.backlog = ∅ ∧ p.next = (none, p.credit) ∨
      ∃ b credit, p.next = (some b, credit) ∧ Turn Class.weight p.backlog p.credit b credit ∧
        ∀ c ∉ p.backlog, credit c = p.credit c := by
  have hstart : (⟨none, 0, p.credit⟩ : Pick).After p ∅ :=
    ⟨by simp, rfl, fun _ => rfl, nofun⟩
  have h := hstart.foldl Class.all (by decide) (by simp)
  rw [empty_union] at h
  change Pick.After p p.backlog _ at h
  unfold Pool.next
  generalize Class.all.foldl (Pick.visit p.lines) _ = s at h ⊢
  dsimp only
  cases hb : s.best with
  | none =>
    refine .inl ⟨h.none hb, Prod.ext rfl (funext fun c => ?_)⟩
    simp [h.credit, h.none hb]
  | some b =>
    obtain ⟨hmem, hmax⟩ := h.best b hb
    refine .inr ⟨b, _, rfl, ⟨hmem, fun c hc => ?_, fun c hc => ?_⟩, fun c hc => ?_⟩
    · linarith [hmax c hc]
    · by_cases hcb : c = b
      · subst hcb
        simp [h.credit, h.total, hc]
      · simp [h.credit, hc, hcb]
    · have hcb : c ≠ b := fun he => hc (he ▸ hmem)
      simp [h.credit, hc, hcb]

end Next

/-! ## Credits -/

section Credit

variable {p : Pool} {cls : Class} {e : LineEvent} {es : List LineEvent}

theorem handoff_spec (p : Pool) :
    p.backlog = ∅ ∧ p.handoff = (none, p) ∨
      ∃ b waiter rest credit, p.lines b = waiter :: rest ∧
        Turn Class.weight p.backlog p.credit b credit ∧ (∀ c ∉ p.backlog, credit c = p.credit c) ∧
        p.handoff = (some (b, waiter),
          { p with lines := update p.lines b rest, credit }.left b) := by
  unfold Pool.handoff
  rcases next_spec p with ⟨hempty, hnext⟩ | ⟨b, credit, hnext, hturn, hkeep⟩
  · exact .inl ⟨hempty, by rw [hnext]⟩
  · cases hl : p.lines b with
    | nil => exact absurd hl (mem_backlog.mp hturn.mem)
    | cons waiter rest =>
      exact .inr ⟨b, waiter, rest, credit, hl, hturn, hkeep, by simp only [hnext, hl]⟩

/-- A line without a waiter has no credit, and the others' credits are spread. -/
structure Pool.Fair (p : Pool) : Prop where
  empty : ∀ cls ∉ p.backlog, p.credit cls = 0
  spread : Spread 15 4 p.backlog p.credit

theorem Pool.Fair.left {l : List ℕ} {credit : Class → ℤ} (hcls : cls ∈ p.backlog)
    (hempty : ∀ c ∉ p.backlog, credit c = 0) (hspread : Spread 15 4 p.backlog credit) :
    ({ p with lines := update p.lines cls l, credit }.left cls).Fair := by
  have hmem : ∀ c, c ∈ ({ p with lines := update p.lines cls l, credit }.left cls).backlog ↔
      if c = cls then l ≠ [] else c ∈ p.backlog := by
    intro c
    rw [mem_backlog, mem_backlog]
    by_cases hc : c = cls <;> simp [Pool.left, update, hc]
  have hcredit : ∀ c, ({ p with lines := update p.lines cls l, credit }.left cls).credit c =
      if c = cls ∧ l = [] then 0 else credit c := by
    intro c
    by_cases hl : l = [] <;> by_cases hc : c = cls <;> simp [Pool.left, update, hl, hc]
  refine ⟨fun c hc => ?_, hspread.mono (fun c hc => ?_) fun c hc => ?_⟩
  · rw [hcredit]
    split_ifs with h
    · rfl
    · by_cases hcc : c = cls
      · subst hcc
        rw [hmem, if_pos rfl, not_not] at hc
        exact absurd ⟨rfl, hc⟩ h
      · rw [hmem, if_neg hcc] at hc
        exact hempty c hc
  · rw [hmem] at hc
    by_cases hcc : c = cls
    · exact hcc ▸ hcls
    · rwa [if_neg hcc] at hc
  · rw [hcredit, if_neg]
    rintro ⟨rfl, hl⟩
    rw [hmem, if_pos rfl] at hc
    exact hc hl

/-- Joining, leaving and being handed a slot keep the credits fair. -/
theorem lineStep_fair (p : Pool) (e : LineEvent) (h : p.Fair) : (p.lineStep e).Fair := by
  cases e with
  | join cls waiter =>
    have hback : (p.join cls waiter).backlog = insert cls p.backlog := by
      ext c
      rw [mem_insert, mem_backlog, mem_backlog]
      by_cases hc : c = cls <;> simp [Pool.join, update, hc]
    refine ⟨fun c hc => ?_, ?_⟩
    · rw [Pool.lineStep, hback, mem_insert, not_or] at hc
      exact h.empty c hc.2
    · rw [Pool.lineStep, hback]
      exact h.spread.join (by decide) (card_le_card (subset_all _)) (h.empty cls)
  | withdraw cls waiter =>
    simp only [Pool.lineStep, Pool.withdraw]
    split
    · next hmem =>
        exact Pool.Fair.left (mem_backlog.mpr (List.ne_nil_of_mem hmem)) h.empty h.spread
    · exact h
  | handoff =>
    unfold Pool.lineStep
    rcases handoff_spec p with ⟨-, hh⟩ | ⟨b, waiter, rest, credit, -, hturn, hkeep, hh⟩
    · rwa [hh]
    · rw [hh]
      refine Pool.Fair.left hturn.mem (fun c hc => (hkeep c hc).trans (h.empty c hc)) ?_
      exact hturn.spread (fun c => (weight_pos c).le) (sum_weight_le _) h.spread

theorem new_fair (capacity : ℕ) (depth : Option ℕ) : (Pool.new capacity depth).Fair where
  empty _ _ := rfl
  spread A hA := by
    obtain rfl : A = ∅ := subset_empty.mp hA
    simp

/-- A credit never leaves the range from -105 to 105. -/
theorem Pool.Fair.credit_le (h : p.Fair) (cls : Class) : |p.credit cls| ≤ 105 := by
  by_cases hcls : cls ∈ p.backlog
  · exact h.spread.credit_le hcls
  · rw [h.empty cls hcls]
    decide

theorem lineStep_credit (h : cls ∈ p.backlog) (h' : cls ∈ (p.lineStep e).backlog) :
    (p.lineStep e).credit cls = p.credit cls + handoffs [e] * cls.weight -
      (∑ c ∈ p.backlog, c.weight) * (p.serves cls e).length := by
  have hleft : ∀ (b : Class) (q : Pool), cls ∈ (q.left b).backlog →
      (q.left b).credit cls = q.credit cls := by
    intro b q hq
    rw [mem_backlog] at hq
    simp only [Pool.left] at hq ⊢
    split
    · next hb => exact update_of_ne (by rintro rfl; simp [hq] at hb) ..
    · rfl
  cases e with
  | join c waiter => simp [Pool.lineStep, Pool.join, Pool.serves, handoffs]
  | withdraw c waiter =>
    simp only [Pool.lineStep, Pool.withdraw, Pool.serves, handoffs] at h' ⊢
    split
    · next hmem =>
        rw [if_pos hmem] at h'
        simp [hleft _ _ h']
    · simp
  | handoff =>
    rcases handoff_spec p with ⟨hempty, -⟩ | ⟨b, waiter, rest, credit, -, hturn, -, hh⟩
    · simp [hempty] at h
    · simp only [Pool.lineStep, Pool.serves, hh] at h' ⊢
      refine (hleft _ _ h').trans ((hturn.eq cls h).trans ?_)
      by_cases hb : b = cls
      · simp [hb, handoffs]
      · simp [hb, Ne.symm hb, handoffs]

/-- A line has a waiter at every point of a stretch of events. -/
def Pool.Backlogged (p : Pool) (cls : Class) (es : List LineEvent) : Prop :=
  Throughout Pool.lineStep (fun p e => cls ∈ p.backlog ∧ cls ∈ (p.lineStep e).backlog) p es

/-- The lines that have a waiter are those of `S` at every point of a stretch of events. -/
def Pool.Constant (p : Pool) (S : Finset Class) (es : List LineEvent) : Prop :=
  Throughout Pool.lineStep (fun p e => p.backlog = S ∧ (p.lineStep e).backlog = S) p es

theorem handoffs_cons (e : LineEvent) (es : List LineEvent) :
    (handoffs (e :: es) : ℤ) = handoffs [e] + handoffs es := by
  simp only [handoffs, List.count_cons, List.count_nil]
  push_cast
  ring

/-- A class that waits and is passed over earns its weight with every handoff. -/
theorem run_credit_unserved (h : p.Backlogged cls es) (hs : p.served cls es = []) :
    (run Pool.lineStep p es).credit cls = p.credit cls + handoffs es * cls.weight := by
  induction es generalizing p with
  | nil => simp [handoffs]
  | cons e es ih =>
    obtain ⟨⟨hbefore, hafter⟩, h⟩ := h
    obtain ⟨hserves, hs⟩ := List.append_eq_nil_iff.mp hs
    have hstep := lineStep_credit hbefore hafter
    rw [hserves] at hstep
    rw [run_cons, ih h hs, hstep, handoffs_cons e es]
    simp only [List.length_nil]
    push_cast
    ring

/-- While the same classes wait, a handoff to one of them costs it what all of them earn. -/
theorem run_credit {S : Finset Class} (hcls : cls ∈ S) (h : p.Constant S es) :
    (run Pool.lineStep p es).credit cls = p.credit cls + handoffs es * cls.weight -
      (∑ c ∈ S, c.weight) * (p.served cls es).length := by
  induction es generalizing p with
  | nil => simp [handoffs, Pool.served]
  | cons e es ih =>
    obtain ⟨⟨hbefore, hafter⟩, h⟩ := h
    have hstep := lineStep_credit (hbefore ▸ hcls) (hafter ▸ hcls)
    rw [run_cons, ih h, hstep, hbefore, handoffs_cons e es, Pool.served, List.length_append]
    push_cast
    ring

end Credit

/-! ## The order of a line -/

theorem lineStep_sublist (p : Pool) (cls : Class) (e : LineEvent) :
    (p.serves cls e ++ (p.lineStep e).lines cls).Sublist (p.lines cls ++ joins cls [e]) := by
  cases e with
  | join c waiter =>
    by_cases hc : c = cls
    · subst hc
      simp [Pool.serves, Pool.lineStep, Pool.join, joins]
    · simp [Pool.serves, Pool.lineStep, Pool.join, joins, hc, Ne.symm hc]
  | withdraw c waiter =>
    simp only [Pool.serves, Pool.lineStep, Pool.withdraw, joins, List.nil_append, List.append_nil]
    split
    · by_cases hc : c = cls
      · subst hc
        simp [Pool.left, List.erase_sublist]
      · simp [Pool.left, Ne.symm hc]
    · exact List.Sublist.refl _
  | handoff =>
    unfold Pool.serves Pool.lineStep
    rcases handoff_spec p with ⟨-, hh⟩ | ⟨b, waiter, rest, credit, hl, -, -, hh⟩
    · simp [hh, joins]
    · by_cases hb : b = cls
      · subst hb
        simp [hh, joins, Pool.left, hl]
      · simp [hh, joins, Pool.left, hb, Ne.symm hb]

/-- Within a class slots are handed out in the order of arrival. -/
theorem run_sublist (p : Pool) (cls : Class) (es : List LineEvent) :
    (p.served cls es ++ (run Pool.lineStep p es).lines cls).Sublist
      (p.lines cls ++ joins cls es) := by
  induction es generalizing p with
  | nil => simp [Pool.served, joins]
  | cons e es ih =>
    have hjoins : joins cls (e :: es) = joins cls [e] ++ joins cls es := by
      cases e <;> simp only [joins] <;> [split <;> rfl; rfl; rfl]
    rw [hjoins, run_cons, Pool.served, List.append_assoc, ← List.append_assoc (p.lines cls)]
    refine ((List.Sublist.refl _).append (ih (p.lineStep e))).trans ?_
    rw [← List.append_assoc]
    exact (lineStep_sublist p cls e).append (List.Sublist.refl _)

/-- **The hand-off is fair.**  Whatever joins, withdrawals and handoffs have led from empty lines to
the present: every credit is between -105 and 105; a line that keeps a waiter is served in any
stretch with more than 210 handoffs; in a stretch in which the lines with a waiter are always those
of `S`, a line of `S` is served its share of the handoffs by weight, but for 210 at most; and the
waiters of a line served so far, followed by those still in it, are in the order in which they
joined. -/
theorem rotation_fair (capacity : ℕ) (depth : Option ℕ) (es : List LineEvent) (cls : Class) :
    |(run Pool.lineStep (Pool.new capacity depth) es).credit cls| ≤ 105 ∧
      (∀ fs, (run Pool.lineStep (Pool.new capacity depth) es).Backlogged cls fs →
        210 < handoffs fs →
        (run Pool.lineStep (Pool.new capacity depth) es).served cls fs ≠ []) ∧
      (∀ S fs, cls ∈ S → (run Pool.lineStep (Pool.new capacity depth) es).Constant S fs →
        |(((run Pool.lineStep (Pool.new capacity depth) es).served cls fs).length : ℚ) -
          handoffs fs * cls.weight / (∑ c ∈ S, c.weight : ℤ)| ≤ 210) ∧
      ((Pool.new capacity depth).served cls es ++
        (run Pool.lineStep (Pool.new capacity depth) es).lines cls).Sublist (joins cls es) := by
  have hfair := run_induction lineStep_fair es (new_fair capacity depth)
  have hsub := run_sublist (Pool.new capacity depth) cls es
  generalize run Pool.lineStep (Pool.new capacity depth) es = p at *
  refine ⟨hfair.credit_le cls, fun fs hfs hmany hnone => ?_, fun S fs hcls hfs => ?_, hsub⟩
  · have hcredit := run_credit_unserved hfs hnone
    have hstart := abs_le.mp (hfair.credit_le cls)
    have hend := abs_le.mp ((run_induction lineStep_fair fs hfair).credit_le cls)
    have hw := weight_pos cls
    have : (handoffs fs : ℤ) ≤ handoffs fs * cls.weight := le_mul_of_one_le_right (by positivity) hw
    omega
  · have hcredit := run_credit hcls hfs
    have hstart := abs_le.mp (hfair.credit_le cls)
    have hend := abs_le.mp ((run_induction lineStep_fair fs hfair).credit_le cls)
    have hW : 1 ≤ ∑ c ∈ S, c.weight :=
      (weight_pos cls).trans_le (single_le_sum (fun c _ => (weight_pos c).le) hcls)
    generalize (∑ c ∈ S, c.weight) = W at *
    have hdiff : |W * (p.served cls fs).length - handoffs fs * cls.weight| ≤ 210 := by
      rw [abs_le]
      constructor <;> linarith
    have hW' : (1 : ℚ) ≤ W := by exact_mod_cast hW
    have hdiff' : |(W : ℚ) * (p.served cls fs).length - handoffs fs * cls.weight| ≤ 210 := by
      exact_mod_cast hdiff
    have hpos : (0 : ℚ) < W := by linarith
    have hshare : ((p.served cls fs).length : ℚ) - handoffs fs * cls.weight / W =
        (W * (p.served cls fs).length - handoffs fs * cls.weight) / W := by
      field_simp
    rw [hshare, abs_div, abs_of_pos hpos, div_le_iff₀ hpos]
    linarith

end Olp.Admission
