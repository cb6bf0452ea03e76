import Olp.Estimate.Vocab
import Olp.Heap
import Olp.PairMerge

/-!
# Merging a long piece

`mergeLarge` merges a piece with a linked list of its parts and a heap of the pairs that can
merge.  A part is named by the offset where it starts.  An entry of the heap is not removed
when a merge changes the pair it stands for; it is stale then, and is dropped when it is
popped.

`Large.Holds` relates the arrays and the heap to the cut points of the piece.  What matters of
the heap is that it has an entry for every pair that can merge, whatever else it holds: the
least entry, unless it is stale, is then the leftmost pair of the lowest rank
(`Holds.isLowest`).  Dropping a stale entry changes nothing (`Holds.stale`), absorbing a
successor deletes one cut (`Holds.absorb`), and the loop ends with the cuts `mergeCuts` leaves
(`Holds.run`).
-/

namespace Olp.Estimate

open PairMerge Function
open List hiding span

/-- The working set of `mergeLarge`. -/
structure Large where
  next : Nat → Nat
  /-- none for the first part, where the source has -1 -/
  prev : Nat → Option Nat
  /-- the rank of a part merged with the part after it -/
  rank : Nat → Nat
  heap : List Nat
  parts : Nat

/-- An entry of the heap: `uint64(r)<<32|uint64(i)`. -/
def entry (r i : Nat) : Nat := r <<< 32 ||| i

namespace Large

variable (rank : Bytes → Nat) (p : Bytes)

/-- The working set before the first merge. -/
def start : Large where
  next i := i + 1
  prev i := if i = 0 then none else some (i - 1)
  rank i := if i + 1 < p.length then rank (span p i (i + 2)) else noRank
  heap := Heap.heapify
    (((List.range (p.length - 1)).filter fun i => rank (span p i (i + 2)) ≠ noRank).map
    fun i => entry (rank (span p i (i + 2))) i)
  parts := p.length

/-- Note the rank of a pair that merges into a token. -/
def offer (s : Large) (i merged : Nat) : Large :=
  if merged ≠ noRank then
    { s with rank := update s.rank i merged, heap := Heap.pushHeap s.heap (entry merged i) }
  else s

/-- Absorb the successor of part `i`, then rank the two pairs the new part is in. -/
def absorb (s : Large) (i : Nat) : Large :=
  let j := s.next i
  let k := s.next j
  let s := { s with next := update s.next i k, rank := update s.rank j noRank }
  let s := if k < p.length then { s with prev := update s.prev k (some i) } else s
  let s := { s with parts := s.parts - 1, rank := update s.rank i noRank }
  let s := if k < p.length then s.offer i (rank (span p i (s.next k))) else s
  match s.prev i with
  | none => s
  | some q => { s with rank := update s.rank q noRank }.offer q (rank (span p q k))

/-- One turn of the loop, for the least entry of the heap. -/
def turn (s : Large) (e : Nat) : Large :=
  let s := { s with heap := Heap.popHeap s.heap }
  let i := e % 2 ^ 32
  let r := e >>> 32
  if s.rank i ≠ r then s else s.absorb rank p i

/-- The loop of `mergeLarge`.  Nothing when the steps run out before the heap is empty. -/
def run : Nat → Large → Option Large
  | 0, _ => none
  | steps + 1, s =>
    match s.heap with
    | [] => some s
    | e :: _ => run steps (s.turn rank p e)

end Large

/-- `mergeLarge`: each turn takes an entry off the heap or a part off the list, and `4` times
the length of the piece is more than there can be. -/
def mergeLarge (rank : Bytes → Nat) (p : Bytes) : Option Large :=
  (Large.start rank p).run rank p (4 * p.length)

/-- The parts that the loop of `appendLarge` visits, from offset `i` on.  Nothing when the
steps run out before the end of the piece. -/
def Large.partsFrom (p : Bytes) (s : Large) : Nat → Nat → Option (List Bytes)
  | 0, _ => none
  | steps + 1, i =>
    if i < p.length then
      (s.partsFrom p steps (s.next i)).map fun parts => span p i (s.next i) :: parts
    else some []

/-! ## Entries -/

section

variable {r i r' i' : Nat} (hi : i < 2 ^ 32)

include hi

theorem entry_eq : entry r i = r * 2 ^ 32 + i := by
  rw [entry, ← Nat.shiftLeft_add_eq_or_of_lt hi, Nat.shiftLeft_eq]

theorem entry_mod : entry r i % 2 ^ 32 = i := by
  rw [entry_eq hi]
  omega

theorem entry_shiftRight : entry r i >>> 32 = r := by
  rw [entry_eq hi, Nat.shiftRight_eq_div_pow]
  omega

theorem entry_le (hi' : i' < 2 ^ 32) (h : entry r i ≤ entry r' i') : r < r' ∨ r = r' ∧ i ≤ i' := by
  rw [entry_eq hi, entry_eq hi'] at h
  omega

end

namespace Large

/-! ## The cut points -/

/-- What the working set holds of the cut points of a piece. -/
structure Holds (rank : Bytes → Nat) (p : Bytes) (cuts : List Nat) (s : Large) : Prop where
  sorted : cuts.Pairwise (· < ·)
  first : cuts[0]? = some 0
  last : cuts[cuts.length - 1]? = some p.length
  next : ∀ i a b, cuts[i]? = some a → cuts[i + 1]? = some b → s.next a = b
  prev : ∀ i a b, cuts[i]? = some a → cuts[i + 1]? = some b → b < p.length → s.prev b = some a
  head : s.prev 0 = none
  live : ∀ i a c, cuts[i]? = some a → cuts[i + 2]? = some c → s.rank a = rank (span p a c)
  dead : ∀ x, (∀ i c, cuts[i]? = some x → cuts[i + 2]? ≠ some c) → s.rank x = noRank
  entries : ∀ i a c, cuts[i]? = some a → cuts[i + 2]? = some c → rank (span p a c) ≠ noRank →
    entry (rank (span p a c)) a ∈ s.heap
  valid : ∀ e ∈ s.heap, ∃ r i, e = entry r i ∧ r ≠ noRank ∧ i < p.length
  heap : Heap.Ordered 0 s.heap
  parts : s.parts + 1 = cuts.length

namespace Holds

variable {rank : Bytes → Nat} {p : Bytes} {cuts : List Nat} {s : Large} (h : Holds rank p cuts s)

include h

theorem lt_of_lt {i j a b : Nat} (hij : i < j) (ha : cuts[i]? = some a)
    (hb : cuts[j]? = some b) : a < b := by
  obtain ⟨hi, rfl⟩ := List.getElem?_eq_some_iff.1 ha
  obtain ⟨hj, rfl⟩ := List.getElem?_eq_some_iff.1 hb
  exact pairwise_iff_getElem.1 h.sorted i j hi hj hij

theorem index_inj {i j a : Nat} (hi : cuts[i]? = some a) (hj : cuts[j]? = some a) : i = j := by
  rcases Nat.lt_trichotomy i j with hlt | heq | hlt
  · exact absurd (h.lt_of_lt hlt hi hj) (Nat.lt_irrefl a)
  · exact heq
  · exact absurd (h.lt_of_lt hlt hj hi) (Nat.lt_irrefl a)

theorem lt_length {i j a b : Nat} (hij : i < j) (ha : cuts[i]? = some a)
    (hb : cuts[j]? = some b) : a < p.length := by
  have hj := (List.getElem?_eq_some_iff.1 hb).1
  exact h.lt_of_lt (show i < cuts.length - 1 by omega) ha h.last

theorem exists_next {i a : Nat} (ha : cuts[i]? = some a)
    (hlt : a < p.length) : ∃ b, cuts[i + 1]? = some b := by
  have hi := (List.getElem?_eq_some_iff.1 ha).1
  have hne : i ≠ cuts.length - 1 := by
    rintro rfl
    have := Option.some.inj (h.last.symm.trans ha)
    omega
  exact ⟨_, getElem?_eq_getElem (show i + 1 < cuts.length by omega)⟩

/-! ## Popping an entry -/

theorem exists_of_rank {x : Nat} (hx : s.rank x ≠ noRank) :
    ∃ i c, cuts[i]? = some x ∧ cuts[i + 2]? = some c := by
  by_contra! hno
  exact hx (h.dead x hno)

/-- The least entry, unless it is stale, is the leftmost pair of the lowest rank. -/
theorem isLowest (hrank : ∀ t, rank t ≤ noRank) (hp : p.length ≤ 2 ^ 32)
    {e : Nat} (he : s.heap[0]? = some e) (hfresh : s.rank (e % 2 ^ 32) = e >>> 32) :
    ∃ t a c, cuts[t]? = some a ∧ cuts[t + 2]? = some c ∧ e = entry (rank (span p a c)) a ∧
      a < p.length ∧ IsLowest noRank (spanRanks (fun a c => rank (span p a c)) cuts) t := by
  obtain ⟨r, a, rfl, hr, ha⟩ := h.valid e (mem_of_getElem? he)
  rw [entry_mod (by omega), entry_shiftRight (by omega)] at hfresh
  obtain ⟨t, c, hat, hct⟩ := h.exists_of_rank (hfresh ▸ hr)
  have hspan : rank (span p a c) = r := (h.live t a c hat hct).symm.trans hfresh
  have hleast : ∀ i b d, cuts[i]? = some b → cuts[i + 2]? = some d →
      r < rank (span p b d) ∨ r = rank (span p b d) ∧ a ≤ b := by
    intro i b d hb hd
    by_cases hno : rank (span p b d) = noRank
    · have := hrank (span p a c)
      omega
    · have hblt := h.lt_length (show i < i + 2 by omega) hb hd
      exact entry_le (by omega) (by omega) (h.heap.le_of_mem he (h.entries i b d hb hd hno))
  refine ⟨t, a, c, hat, hct, by rw [hspan], ha, r,
    getElem?_spanRanks.2 ⟨a, c, hat, hct, hspan⟩, ?_, ?_, ?_⟩
  · have := hrank (span p a c)
    omega
  · intro q hq
    obtain ⟨i, hi⟩ := mem_iff_getElem?.1 hq
    obtain ⟨b, d, hb, hd, rfl⟩ := getElem?_spanRanks.1 hi
    rcases hleast i b d hb hd with hlt | ⟨heq, -⟩
    · exact hlt.le
    · exact heq.le
  · intro i hit q hi
    obtain ⟨b, d, hb, hd, rfl⟩ := getElem?_spanRanks.1 hi
    have hba := h.lt_of_lt hit hb hat
    rcases hleast i b d hb hd with hlt | ⟨-, hle⟩
    · exact hlt
    · omega

theorem stale (hp : p.length ≤ 2 ^ 32) {e : Nat}
    (he : s.heap[0]? = some e) (hstale : s.rank (e % 2 ^ 32) ≠ e >>> 32) :
    Holds rank p cuts { s with heap := Heap.popHeap s.heap } := by
  have hperm := Heap.popHeap_perm he
  refine ⟨h.sorted, h.first, h.last, h.next, h.prev, h.head, h.live, h.dead, ?_, ?_,
    Heap.popHeap_ordered h.heap, h.parts⟩
  · intro i a c ha hc hno
    have halt := h.lt_length (show i < i + 2 by omega) ha hc
    rcases mem_cons.1 (hperm.mem_iff.2 (h.entries i a c ha hc hno)) with heq | hmem
    · rw [← heq, entry_mod (by omega), entry_shiftRight (by omega)] at hstale
      exact absurd (h.live i a c ha hc) hstale
    · exact hmem
  · intro x hx
    exact h.valid x (hperm.mem_iff.1 (mem_cons_of_mem e hx))

end Holds

/-! ## Absorbing a successor -/

section

variable {rank : Bytes → Nat} {p : Bytes} {s : Large} {i merged x : Nat}

theorem offer_next : (s.offer i merged).next = s.next := by
  unfold offer
  split <;> rfl

theorem offer_prev : (s.offer i merged).prev = s.prev := by
  unfold offer
  split <;> rfl

theorem offer_parts : (s.offer i merged).parts = s.parts := by
  unfold offer
  split <;> rfl

theorem offer_rank (hi : s.rank i = noRank) :
    (s.offer i merged).rank x = if x = i then merged else s.rank x := by
  unfold offer
  by_cases hx : x = i
  · subst hx
    split
    · rw [if_pos rfl]
      exact update_self ..
    · rename_i hno
      rw [if_pos rfl, hi, not_not.1 hno]
  · rw [if_neg hx]
    split
    · exact update_of_ne hx ..
    · rfl

theorem mem_offer {e : Nat} :
    e ∈ (s.offer i merged).heap ↔ e ∈ s.heap ∨ merged ≠ noRank ∧ e = entry merged i := by
  unfold offer
  split
  · rename_i hyes
    rw [(Heap.pushHeap_perm s.heap (entry merged i)).mem_iff, mem_cons]
    exact ⟨fun h => h.symm.imp id fun he => ⟨hyes, he⟩, fun h => h.symm.imp (fun he => he.2) id⟩
  · rename_i hno
    exact ⟨.inl, fun h => h.resolve_right fun he => hno he.1⟩

theorem length_offer : (s.offer i merged).heap.length ≤ s.heap.length + 1 := by
  unfold offer
  split
  · exact ((Heap.pushHeap_perm s.heap (entry merged i)).length_eq).le
  · exact Nat.le_succ _

theorem offer_ordered (h : Heap.Ordered 0 s.heap) : Heap.Ordered 0 (s.offer i merged).heap := by
  unfold offer
  split
  · exact Heap.pushHeap_ordered h _
  · exact h

/-- The linked list and the ranks once part `i` took over the part up to `k`, before the
pairs of the new part are ranked. -/
def linked (p : Bytes) (s : Large) (i j k : Nat) : Large where
  next := update s.next i k
  prev := if k < p.length then update s.prev k (some i) else s.prev
  rank := update (update s.rank j noRank) i noRank
  heap := s.heap
  parts := s.parts - 1

theorem absorb_eq : s.absorb rank p i
    = let k := s.next (s.next i)
      let s₁ := s.linked p i (s.next i) k
      let s₂ := if k < p.length then s₁.offer i (rank (span p i (s₁.next k))) else s₁
      match s₂.prev i with
      | none => s₂
      | some q => { s₂ with rank := update s₂.rank q noRank }.offer q (rank (span p q k)) := by
  unfold absorb linked
  by_cases hk : s.next (s.next i) < p.length
  · simp only [hk, if_true]
  · simp only [hk, if_false]

end

/-- The working set after part `a` absorbed the part from `j` to `c`. -/
structure Absorbed (rank : Bytes → Nat) (p : Bytes) (s : Large) (a j c : Nat) (s' : Large) :
    Prop where
  next : s'.next = update s.next a c
  prev : ∀ x, s'.prev x = if x = c ∧ c < p.length then some a else s.prev x
  parts : s'.parts = s.parts - 1
  ranks : ∀ x, s'.rank x =
    if s.prev a = some x then rank (span p x c)
    else if x = a then (if c < p.length then rank (span p a (s.next c)) else noRank)
    else if x = j then noRank else s.rank x
  heap : ∀ e, e ∈ s'.heap ↔ e ∈ s.heap ∨
    (c < p.length ∧ rank (span p a (s.next c)) ≠ noRank ∧
      e = entry (rank (span p a (s.next c))) a) ∨
    ∃ q, s.prev a = some q ∧ rank (span p q c) ≠ noRank ∧ e = entry (rank (span p q c)) q
  ordered : Heap.Ordered 0 s.heap → Heap.Ordered 0 s'.heap
  grows : s'.heap.length ≤ s.heap.length + 2

theorem absorb_spec {rank : Bytes → Nat} {p : Bytes} {s : Large} {a j c : Nat} (hj : s.next a = j)
    (hc : s.next j = c) (hac : a ≠ c) :
    Absorbed rank p s a j c (s.absorb rank p a) := by
  rw [absorb_eq, hj, hc]
  dsimp only
  have hnext : (s.linked p a j c).next c = s.next c := update_of_ne hac.symm ..
  have hfresh : (s.linked p a j c).rank a = noRank := update_self ..
  rw [hnext]
  -- the pair of the new part with its successor
  generalize hs : (if c < p.length then (s.linked p a j c).offer a (rank (span p a (s.next c)))
    else s.linked p a j c) = t
  have htnext : t.next = update s.next a c := by
    rw [← hs]
    split
    · exact offer_next
    · rfl
  have htprev : ∀ x, t.prev x = if x = c ∧ c < p.length then some a else s.prev x := by
    intro x
    have hp : t.prev = if c < p.length then update s.prev c (some a) else s.prev := by
      rw [← hs]
      split
      · rw [offer_prev]
        exact if_pos ‹_›
      · exact if_neg ‹_›
    rw [hp]
    by_cases hlt : c < p.length
    · by_cases hx : x = c <;> simp [hlt, hx]
    · simp [hlt]
  have htparts : t.parts = s.parts - 1 := by
    rw [← hs]
    split
    · exact offer_parts
    · rfl
  have htrank : ∀ x, t.rank x =
      if x = a then (if c < p.length then rank (span p a (s.next c)) else noRank)
      else if x = j then noRank else s.rank x := by
    intro x
    have hother : x ≠ a → (s.linked p a j c).rank x = if x = j then noRank else s.rank x := by
      intro hx
      refine (update_of_ne hx ..).trans ?_
      by_cases hxj : x = j
      · rw [if_pos hxj, hxj, update_self]
      · rw [if_neg hxj, update_of_ne hxj]
    rw [← hs]
    by_cases hlt : c < p.length
    · rw [if_pos hlt, offer_rank hfresh]
      by_cases hx : x = a
      · rw [if_pos hx, if_pos hx, if_pos hlt]
      · rw [if_neg hx, if_neg hx, hother hx]
    · rw [if_neg hlt]
      by_cases hx : x = a
      · rw [if_pos hx, if_neg hlt, hx, hfresh]
      · rw [if_neg hx, hother hx]
  have htheap : ∀ e, e ∈ t.heap ↔ e ∈ s.heap ∨ (c < p.length ∧
      rank (span p a (s.next c)) ≠ noRank ∧ e = entry (rank (span p a (s.next c))) a) := by
    intro e
    rw [← hs]
    by_cases hlt : c < p.length
    · rw [if_pos hlt, mem_offer]
      simp only [linked, hlt, true_and]
    · rw [if_neg hlt]
      simp only [linked, hlt, false_and, or_false]
  have htordered : Heap.Ordered 0 s.heap → Heap.Ordered 0 t.heap := by
    intro ho
    rw [← hs]
    split
    · exact offer_ordered ho
    · exact ho
  have htgrows : t.heap.length ≤ s.heap.length + 1 := by
    rw [← hs]
    split
    · exact length_offer
    · exact Nat.le_succ _
  have hta : t.prev a = s.prev a := by rw [htprev, if_neg fun h => hac h.1]
  -- the pair of the new part with its predecessor
  rw [hta]
  cases hq : s.prev a with
  | none =>
    refine ⟨htnext, htprev, htparts, ?_, ?_, htordered, Nat.le_succ_of_le htgrows⟩
    · intro x
      rw [htrank, hq, if_neg (show ¬ (none = some x) by simp)]
    · intro e
      rw [htheap]
      simp [hq]
  | some q =>
    refine ⟨offer_next.trans htnext, ?_, offer_parts.trans htparts, ?_, ?_, ?_,
      length_offer.trans (Nat.succ_le_succ htgrows)⟩
    · intro x
      rw [offer_prev]
      exact htprev x
    · intro x
      rw [offer_rank (update_self ..)]
      by_cases hx : x = q
      · rw [if_pos hx, if_pos (by rw [hq, hx]), hx]
      · rw [if_neg hx, hq, if_neg (by simpa using Ne.symm hx)]
        exact (update_of_ne hx ..).trans (htrank x)
    · intro e
      rw [mem_offer, htheap]
      simp [hq, or_assoc]
    · intro ho
      exact offer_ordered (htordered ho)

namespace Holds

variable {rank : Bytes → Nat} {p : Bytes} {cuts : List Nat} {s : Large}

theorem prev_eq (h : Holds rank p cuts s) {t a b : Nat} (ha : cuts[t]? = some a)
    (hb : cuts[t + 1]? = some b) {q : Nat} : s.prev a = some q ↔ 0 < t ∧ cuts[t - 1]? = some q := by
  cases t with
  | zero =>
    cases h.first.symm.trans ha
    rw [h.head]
    simp
  | succ t =>
    have hlt := h.lt_length (Nat.lt_succ_self (t + 1)) ha hb
    have ht := (List.getElem?_eq_some_iff.1 ha).1
    obtain ⟨q', hq'⟩ : ∃ q', cuts[t]? = some q' := ⟨_, getElem?_eq_getElem (by omega)⟩
    rw [h.prev t q' a hq' ha hlt, Nat.add_sub_cancel, hq']
    simp

/-- The pairs once the cut after `t` is deleted: the two the new part is in, and those of the
old cuts that the deleted cut was not in. -/
theorem pair_erase {t i x z a c : Nat} (ha : cuts[t]? = some a) (hc : cuts[t + 2]? = some c)
    (hx : (cuts.eraseIdx (t + 1))[i]? = some x) (hz : (cuts.eraseIdx (t + 1))[i + 2]? = some z) :
    (∃ k, k + 1 ≠ t ∧ k ≠ t ∧ k ≠ t + 1 ∧ cuts[k]? = some x ∧ cuts[k + 2]? = some z) ∨
    (i + 1 = t ∧ cuts[t - 1]? = some x ∧ z = c) ∨ (x = a ∧ cuts[t + 3]? = some z) := by
  rw [getElem?_eraseIdx] at hx hz
  rcases Nat.lt_trichotomy i t with hlt | rfl | hgt
  · rw [if_pos (by omega)] at hx
    by_cases hi : i + 1 = t
    · rw [if_neg (by omega), show i + 2 + 1 = t + 2 by omega] at hz
      exact .inr (.inl ⟨hi, by rwa [show t - 1 = i by omega], Option.some.inj (hz.symm.trans hc)⟩)
    · rw [if_pos (by omega)] at hz
      exact .inl ⟨i, hi, by omega, by omega, hx, hz⟩
  · rw [if_pos (by omega)] at hx
    rw [if_neg (by omega)] at hz
    exact .inr (.inr ⟨Option.some.inj (hx.symm.trans ha), hz⟩)
  · rw [if_neg (by omega)] at hx hz
    exact .inl ⟨i + 1, by omega, by omega, by omega,
      hx, by rwa [show i + 1 + 2 = i + 2 + 1 by omega]⟩

theorem erase_pair {t k x z : Nat} (h₁ : k + 1 ≠ t) (h₂ : k ≠ t) (h₃ : k ≠ t + 1)
    (hx : cuts[k]? = some x) (hz : cuts[k + 2]? = some z) :
    ∃ i, (cuts.eraseIdx (t + 1))[i]? = some x ∧ (cuts.eraseIdx (t + 1))[i + 2]? = some z := by
  by_cases hlt : k < t
  · exact ⟨k, by rw [getElem?_eraseIdx, if_pos (by omega), hx],
      by rw [getElem?_eraseIdx, if_pos (by omega), hz]⟩
  · obtain ⟨i, rfl⟩ : ∃ i, k = i + 1 := ⟨k - 1, by omega⟩
    exact ⟨i, by rw [getElem?_eraseIdx, if_neg (by omega), hx],
      by rw [getElem?_eraseIdx, if_neg (by omega), show i + 2 + 1 = i + 1 + 2 by omega, hz]⟩

/-- The links once the cut after `t` is deleted: the new one, and the old ones that the
deleted cut was not in. -/
theorem link_erase {t i x y a c : Nat} (ha : cuts[t]? = some a) (hc : cuts[t + 2]? = some c)
    (hx : (cuts.eraseIdx (t + 1))[i]? = some x) (hy : (cuts.eraseIdx (t + 1))[i + 1]? = some y) :
    (∃ k, k ≠ t ∧ k ≠ t + 1 ∧ cuts[k]? = some x ∧ cuts[k + 1]? = some y) ∨ (x = a ∧ y = c) := by
  rw [getElem?_eraseIdx] at hx hy
  rcases Nat.lt_trichotomy i t with hlt | rfl | hgt
  · rw [if_pos (by omega)] at hx hy
    exact .inl ⟨i, by omega, by omega, hx, hy⟩
  · rw [if_pos (by omega)] at hx
    rw [if_neg (by omega)] at hy
    exact .inr ⟨Option.some.inj (hx.symm.trans ha), Option.some.inj (hy.symm.trans hc)⟩
  · rw [if_neg (by omega)] at hx hy
    exact .inl ⟨i + 1, by omega, by omega, hx, hy⟩

variable (h : Holds rank p cuts s)

include h

/-- Absorbing a successor deletes the cut between the two parts. -/
theorem absorb {t a j c : Nat} (ha : cuts[t]? = some a)
    (hj : cuts[t + 1]? = some j) (hc : cuts[t + 2]? = some c) {heap : List Nat}
    (hord : Heap.Ordered 0 heap) (hsub : ∀ e ∈ heap, e ∈ s.heap)
    (hrest : ∀ e ∈ s.heap, e ≠ entry (rank (span p a c)) a → e ∈ heap) (hp : p.length ≤ 2 ^ 32) :
    Holds rank p (cuts.eraseIdx (t + 1)) (Large.absorb rank p { s with heap } a) := by
  have hlen := (List.getElem?_eq_some_iff.1 hc).1
  have haj := h.lt_of_lt (Nat.lt_succ_self t) ha hj
  have hjc := h.lt_of_lt (Nat.lt_succ_self (t + 1)) hj hc
  have hspec : Absorbed rank p { s with heap } a j c (Large.absorb rank p { s with heap } a) :=
    absorb_spec (h.next t a j ha hj) (h.next (t + 1) j c hj hc) (by omega)
  have hq : ∀ q, s.prev a = some q ↔ 0 < t ∧ cuts[t - 1]? = some q := fun q => h.prev_eq ha hj
  generalize Large.absorb rank p { s with heap } a = s' at hspec
  have hne : ∀ {k l x y : Nat}, k ≠ l → cuts[k]? = some x → cuts[l]? = some y → x ≠ y := by
    rintro k l x y hkl hx hy rfl
    exact hkl (h.index_inj hx hy)
  have hlt : a < p.length := h.lt_length (Nat.lt_succ_self t) ha hj
  -- the ranks of the pairs that the deleted cut was not in
  have hkeep : ∀ k x z, k + 1 ≠ t → k ≠ t → k ≠ t + 1 → cuts[k]? = some x → cuts[k + 2]? = some z →
      s'.rank x = rank (span p x z) := by
    intro k x z h₁ h₂ h₃ hx hz
    rw [hspec.ranks, if_neg, if_neg (hne h₂ hx ha), if_neg (hne h₃ hx hj)]
    · exact h.live k x z hx hz
    · intro hprev
      obtain ⟨hpos, hq⟩ := (hq x).1 hprev
      exact h₁ (by have := h.index_inj hx hq; omega)
  have hnew : ∀ z, cuts[t + 3]? = some z → c < p.length ∧ s.next c = z := by
    intro z hz
    exact ⟨h.lt_length (Nat.lt_succ_self (t + 2)) hc hz, h.next (t + 2) c z hc hz⟩
  have hself : s.prev a ≠ some a := by
    intro hprev
    obtain ⟨hpos, hq⟩ := (hq a).1 hprev
    exact absurd (h.index_inj hq ha) (by omega)
  constructor
  case sorted => exact h.sorted.sublist (eraseIdx_sublist _ _)
  case first => rw [getElem?_eraseIdx, if_pos (by omega), h.first]
  case last =>
    rw [length_eraseIdx_of_lt (by omega), getElem?_eraseIdx, if_neg (by omega), ← h.last]
    congr 1
    omega
  case next =>
    intro i x y hx hy
    rw [hspec.next]
    rcases link_erase ha hc hx hy with ⟨k, h₁, h₂, hx, hy⟩ | ⟨rfl, rfl⟩
    · rw [update_of_ne (hne h₁ hx ha)]
      exact h.next k x y hx hy
    · exact update_self ..
  case prev =>
    intro i x y hx hy hylt
    rw [hspec.prev]
    rcases link_erase ha hc hx hy with ⟨k, h₁, h₂, hx, hy⟩ | ⟨rfl, rfl⟩
    · rw [if_neg fun hyc => hne (show k + 1 ≠ t + 2 by omega) hy hc hyc.1]
      exact h.prev k x y hx hy hylt
    · exact if_pos ⟨rfl, hylt⟩
  case head =>
    rw [hspec.prev, if_neg (by omega)]
    exact h.head
  case live =>
    intro i x z hx hz
    rcases pair_erase ha hc hx hz with ⟨k, h₁, h₂, h₃, hx, hz⟩ | ⟨hi, hx, rfl⟩ | ⟨rfl, hz⟩
    · exact hkeep k x z h₁ h₂ h₃ hx hz
    · rw [hspec.ranks, if_pos ((hq x).2 ⟨by omega, hx⟩)]
    · obtain ⟨hclt, hnext⟩ := hnew z hz
      rw [hspec.ranks, if_neg hself, if_pos rfl, if_pos hclt]
      exact congrArg (fun b => rank (span p x b)) hnext
  case dead =>
    intro x hx
    have hnq : s.prev a ≠ some x := by
      intro hprev
      obtain ⟨hpos, hq⟩ := (hq x).1 hprev
      refine hx (t - 1) c ?_ ?_
      · rw [getElem?_eraseIdx, if_pos (by omega), hq]
      · rw [getElem?_eraseIdx, if_neg (by omega), ← hc]
        congr 1
        omega
    rw [hspec.ranks, if_neg hnq]
    by_cases hxa : x = a
    · rw [if_pos hxa, if_neg]
      intro hclt
      obtain ⟨z, hz⟩ := h.exists_next hc hclt
      refine hx t z ?_ ?_
      · rw [getElem?_eraseIdx, if_pos (by omega), hxa, ha]
      · rw [getElem?_eraseIdx, if_neg (by omega), ← hz]
    · rw [if_neg hxa]
      by_cases hxj : x = j
      · rw [if_pos hxj]
      · rw [if_neg hxj]
        refine h.dead x fun k z hk hz => ?_
        have h₁ : k + 1 ≠ t := by
          rintro rfl
          exact hnq ((hq x).2 ⟨by omega, hk⟩)
        have h₂ : k ≠ t := by
          rintro rfl
          exact hxa (Option.some.inj (hk.symm.trans ha))
        have h₃ : k ≠ t + 1 := by
          rintro rfl
          exact hxj (Option.some.inj (hk.symm.trans hj))
        obtain ⟨i, hi, hi'⟩ := erase_pair h₁ h₂ h₃ hk hz
        exact hx i z hi hi'
  case entries =>
    intro i x z hx hz hno
    rw [hspec.heap]
    rcases pair_erase ha hc hx hz with ⟨k, h₁, h₂, h₃, hx, hz⟩ | ⟨hi, hx, rfl⟩ | ⟨rfl, hz⟩
    · refine .inl (hrest _ (h.entries k x z hx hz hno) fun heq => ?_)
      have hxlt := h.lt_length (show k < k + 2 by omega) hx hz
      have hlow : entry (rank (span p x z)) x % 2 ^ 32 = entry (rank (span p a c)) a % 2 ^ 32 := by
        rw [heq]
      rw [entry_mod (by omega), entry_mod (by omega)] at hlow
      exact hne h₂ hx ha hlow
    · exact .inr (.inr ⟨x, (hq x).2 ⟨by omega, hx⟩, hno, rfl⟩)
    · obtain ⟨hclt, rfl⟩ := hnew z hz
      exact .inr (.inl ⟨hclt, hno, rfl⟩)
  case valid =>
    intro e he
    rcases (hspec.heap e).1 he with he | ⟨-, hno, rfl⟩ | ⟨q, hprev, hno, rfl⟩
    · exact h.valid e (hsub e he)
    · exact ⟨_, a, rfl, hno, hlt⟩
    · obtain ⟨hpos, hq⟩ := (hq q).1 hprev
      exact ⟨_, q, rfl, hno, h.lt_length (show t - 1 < t by omega) hq ha⟩
  case heap => exact hspec.ordered hord
  case parts =>
    have := h.parts
    have hparts : s'.parts = s.parts - 1 := hspec.parts
    rw [hparts, length_eraseIdx_of_lt (by omega)]
    omega

theorem lowest_of_empty
    (hempty : s.heap = []) :
    lowest noRank (spanRanks (fun a c => rank (span p a c)) cuts) = none := by
  rw [lowest_eq_none]
  intro r hr
  obtain ⟨i, hi⟩ := mem_iff_getElem?.1 hr
  obtain ⟨a, c, ha, hc, rfl⟩ := getElem?_spanRanks.1 hi
  by_contra hlt
  have := h.entries i a c ha hc (by omega)
  rw [hempty] at this
  cases this

/-- The loop ends, with the cuts that merging leaves. -/
theorem run (hrank : ∀ t, rank t ≤ noRank) (hp : p.length ≤ 2 ^ 32)
    {steps : Nat} (hsteps : 2 * (cuts.length - 2) + s.heap.length < steps) :
    ∃ s', s.run rank p steps = some s' ∧
      Holds rank p (mergeCuts (fun a c => rank (span p a c)) noRank cuts) s' := by
  induction steps generalizing cuts s with
  | zero => omega
  | succ steps ih =>
    rw [Large.run]
    cases hheap : s.heap with
    | nil =>
      have hlow := h.lowest_of_empty hheap
      refine ⟨s, rfl, ?_⟩
      rw [mergeCuts]
      split
      · exact h
      · rename_i i hi
        rw [hlow] at hi
        cases hi
    | cons e rest =>
      have he : s.heap[0]? = some e := by rw [hheap]; rfl
      have hperm := Heap.popHeap_perm he
      have hlen := hperm.length_eq
      rw [length_cons] at hlen
      dsimp only
      by_cases hstale : s.rank (e % 2 ^ 32) = e >>> 32
      · obtain ⟨t, a, c, ha, hc, rfl, halt, hlow⟩ := h.isLowest hrank hp he hstale
        have ht := (List.getElem?_eq_some_iff.1 hc).1
        obtain ⟨j, hj⟩ : ∃ j, cuts[t + 1]? = some j := ⟨_, getElem?_eq_getElem (by omega)⟩
        have hturn : s.turn rank p (entry (rank (span p a c)) a)
            = Large.absorb rank p { s with heap := Heap.popHeap s.heap } a := by
          rw [entry_mod (by omega)] at hstale
          rw [turn, entry_mod (by omega)]
          exact if_neg (not_not.2 hstale)
        have hac := h.lt_of_lt (show t < t + 2 by omega) ha hc
        have hspec : Absorbed rank p { s with heap := Heap.popHeap s.heap } a j c
            (Large.absorb rank p { s with heap := Heap.popHeap s.heap } a) :=
          absorb_spec (h.next t a j ha hj) (h.next (t + 1) j c hj hc) (by omega)
        have hgrows : _ ≤ (Heap.popHeap s.heap).length + 2 := hspec.grows
        have hnext := h.absorb ha hj hc (Heap.popHeap_ordered h.heap)
          (fun x hx => hperm.mem_iff.1 (mem_cons_of_mem _ hx))
          (fun x hx hne => (mem_cons.1 (hperm.mem_iff.2 hx)).resolve_left hne) hp
        have hcuts := length_eraseIdx_of_lt (show t + 1 < cuts.length by omega)
        obtain ⟨s', hrun, hholds⟩ := ih hnext (by rw [hcuts]; omega)
        rw [hturn]
        refine ⟨s', hrun, ?_⟩
        rw [mergeCuts]
        split
        · rename_i hno
          rw [lowest_eq_some.2 hlow] at hno
          cases hno
        · rename_i i hi
          cases (lowest_eq_some.2 hlow).symm.trans hi
          exact hholds
      · have hturn : s.turn rank p e = { s with heap := Heap.popHeap s.heap } := if_pos hstale
        rw [hturn]
        exact ih (h.stale hp he hstale) (by dsimp only; omega)

theorem partsFrom_eq {steps i a : Nat} (ha : cuts[i]? = some a) (hsteps : cuts.length ≤ i + steps) :
    s.partsFrom p steps a = some (pieces p (cuts.drop i)) := by
  induction steps generalizing i a with
  | zero =>
    have := (List.getElem?_eq_some_iff.1 ha).1
    omega
  | succ steps ih =>
    obtain ⟨hi, rfl⟩ := List.getElem?_eq_some_iff.1 ha
    rw [partsFrom, drop_eq_getElem_cons hi]
    by_cases hlt : cuts[i] < p.length
    · obtain ⟨b, hb⟩ := h.exists_next ha hlt
      obtain ⟨hi', rfl⟩ := List.getElem?_eq_some_iff.1 hb
      rw [if_pos hlt, h.next i _ _ ha hb, ih hb (by omega), drop_eq_getElem_cons hi']
      rfl
    · have hlast : cuts.length ≤ i + 1 := by
        by_contra hmore
        exact hlt (h.lt_length (Nat.lt_succ_self i) ha (getElem?_eq_getElem (by omega)))
      rw [if_neg hlt, drop_eq_nil_of_le hlast]
      rfl

end Holds

theorem holds_start (rank : Bytes → Nat) (p : Bytes) :
    Holds rank p (List.range (p.length + 1)) (start rank p) := by
  have hget : ∀ {i a : Nat}, (List.range (p.length + 1))[i]? = some a ↔
      i < p.length + 1 ∧ i = a := by
    intro i a
    rw [List.getElem?_eq_some_iff]
    simp
  have hheap : ∀ e, e ∈ (start rank p).heap ↔
      ∃ i < p.length - 1, rank (span p i (i + 2)) ≠ noRank ∧
        entry (rank (span p i (i + 2))) i = e := by
    intro e
    rw [start, (Heap.heapify_perm _).mem_iff]
    simp [and_assoc]
  constructor
  case sorted => exact pairwise_lt_range
  case first => exact hget.2 ⟨by omega, rfl⟩
  case last => exact hget.2 ⟨by simp, by simp⟩
  case next =>
    intro i a b ha hb
    obtain ⟨-, rfl⟩ := hget.1 ha
    exact (hget.1 hb).2
  case prev =>
    intro i a b ha hb _
    obtain ⟨-, rfl⟩ := hget.1 ha
    obtain ⟨-, rfl⟩ := hget.1 hb
    rfl
  case head => rfl
  case live =>
    intro i a c ha hc
    obtain ⟨-, rfl⟩ := hget.1 ha
    obtain ⟨hlt, rfl⟩ := hget.1 hc
    exact if_pos (by omega)
  case dead =>
    intro x hx
    refine if_neg fun hlt => ?_
    exact hx x (x + 2) (hget.2 ⟨by omega, rfl⟩) (hget.2 ⟨by omega, rfl⟩)
  case entries =>
    intro i a c ha hc hno
    obtain ⟨-, rfl⟩ := hget.1 ha
    obtain ⟨hlt, rfl⟩ := hget.1 hc
    exact (hheap _).2 ⟨i, by omega, hno, rfl⟩
  case valid =>
    intro e he
    obtain ⟨i, hi, hno, rfl⟩ := (hheap e).1 he
    exact ⟨_, i, rfl, hno, by omega⟩
  case heap => exact Heap.heapify_ordered _
  case parts => simp [start]

end Large

theorem mergeLarge_spec {rank : Bytes → Nat} (hrank : ∀ t, rank t ≤ noRank) {p : Bytes}
    (hne : p ≠ []) (hp : p.length ≤ 2 ^ 32) :
    ∃ s, mergeLarge rank p = some s ∧ Large.Holds rank p
      (mergeCuts (fun a c => rank (span p a c)) noRank (List.range (p.length + 1))) s := by
  refine (Large.holds_start rank p).run hrank hp ?_
  have hpos := length_pos_iff.2 hne
  have hheap : (Large.start rank p).heap.length ≤ p.length - 1 := by
    rw [Large.start, (Heap.heapify_perm _).length_eq, length_map]
    exact (length_filter_le _ _).trans_eq length_range
  rw [length_range]
  omega

end Olp.Estimate
