import Olp.Estimate.Vocab
import Olp.PairMerge

/-!
# Merging a short piece

`mergeSmall` merges a piece of up to `smallPiece` bytes by scanning the ranks of its pairs
after each merge.  It is `Olp.PairMerge` on the cut points of the piece: `Small.Holds` relates
its arrays to the cut points, `Small.Holds.mergeAt` shows that a merge deletes one cut and ranks
the pairs beside it, and `Small.Holds.run` that it ends with the cuts `mergeCuts` leaves.

The rank of a text is a parameter here.
-/

namespace Olp.Estimate

open PairMerge Function
open List hiding span

/-- The working set of `mergeSmall`. -/
structure Small where
  /-- where each part starts, and where the last ends -/
  bounds : Nat → Nat
  /-- the rank of each part merged with the next -/
  ranks : Nat → Nat
  parts : Nat

/-- The scan for the best of the first ranks: `best` and `at`. -/
def bestPair (ranks : Nat → Nat) (count : Nat) : Nat × Option Nat :=
  (List.range count).foldl
    (fun best i => if ranks i < best.1 then (ranks i, some i) else best) (noRank, none)

namespace Small

variable (rank : Bytes → Nat) (p : Bytes)

/-- Merge a part with the next by dropping the boundary between them, then rank the two
pairs the new part is in. -/
def mergeAt (s : Small) (i : Nat) : Small :=
  let bounds := fun j => if i + 1 ≤ j ∧ j < s.parts then s.bounds (j + 1) else s.bounds j
  let ranks :=
    if i + 2 < s.parts then
      fun j => if i + 1 ≤ j ∧ j < s.parts - 2 then s.ranks (j + 1) else s.ranks j
    else s.ranks
  let parts := s.parts - 1
  let ranks :=
    if 0 < i then update ranks (i - 1) (rank (span p (bounds (i - 1)) (bounds (i + 1))))
    else ranks
  let ranks :=
    if i < parts - 1 then update ranks i (rank (span p (bounds i) (bounds (i + 2))))
    else ranks
  ⟨bounds, ranks, parts⟩

/-- The loop of `mergeSmall`. -/
def run (s : Small) : Small :=
  if _h : 1 < s.parts then
    match (bestPair s.ranks (s.parts - 1)).2 with
    | none => s
    | some i => (s.mergeAt rank p i).run
  else s
termination_by s.parts
decreasing_by exact Nat.sub_lt (by omega) (by omega)

/-- The working set before the first merge. -/
def start : Small :=
  ⟨id, fun i => if i + 1 < p.length then rank (span p i (i + 2)) else 0, p.length⟩

end Small

/-- `mergeSmall`. -/
def mergeSmall (rank : Bytes → Nat) (p : Bytes) : Small := (Small.start rank p).run rank p

theorem foldl_best (ranks : Nat → Nat) (l : List Nat) (best : Nat) (found : Option Nat) :
    (l.foldl (fun best i => if ranks i < best.1 then (ranks i, some i) else best) (best, found)).2
      = match lowest best (l.map ranks) with
        | none => found
        | some j => l[j]? := by
  induction l generalizing best found with
  | nil => rfl
  | cons i l ih =>
    rw [foldl_cons, map_cons, lowest]
    by_cases hlt : ranks i < best
    · dsimp only
      rw [if_pos hlt, ih, Nat.min_eq_left hlt.le]
      cases lowest (ranks i) (l.map ranks) with
      | none => simp [hlt]
      | some j => rfl
    · dsimp only
      rw [if_neg hlt, ih, Nat.min_eq_right (Nat.not_lt.1 hlt)]
      cases lowest best (l.map ranks) with
      | none => simp [hlt]
      | some j => rfl

theorem bestPair_eq (ranks : Nat → Nat) (count : Nat) :
    (bestPair ranks count).2 = lowest noRank ((List.range count).map ranks) := by
  rw [bestPair, foldl_best]
  cases hl : lowest noRank ((List.range count).map ranks) with
  | none => rfl
  | some j =>
    obtain ⟨r, hr, -⟩ := isLowest_of_lowest hl
    have hlt := (List.getElem?_eq_some_iff.1 hr).1
    rw [length_map, length_range] at hlt
    exact getElem?_range hlt

namespace Small

def cuts (s : Small) : List Nat := (List.range (s.parts + 1)).map s.bounds

variable (s : Small) (i : Nat)

theorem getElem?_cuts : s.cuts[i]? = if i < s.parts + 1 then some (s.bounds i) else none := by
  rw [cuts, getElem?_map]
  split
  · rename_i h
    rw [getElem?_range h, Option.map_some]
  · rename_i h
    rw [getElem?_eq_none (by rw [length_range]; omega), Option.map_none]

variable {rank : Bytes → Nat} {p : Bytes}

/-- The ranks are those of the pairs, and the boundaries go up. -/
structure Holds (rank : Bytes → Nat) (p : Bytes) (s : Small) : Prop where
  sorted : s.cuts.Pairwise (· < ·)
  ranked : ∀ i, i + 1 < s.parts → s.ranks i = rank (span p (s.bounds i) (s.bounds (i + 2)))

theorem Holds.map_ranks {s : Small} (h : Holds rank p s) :
    (List.range (s.parts - 1)).map s.ranks = spanRanks (fun a c => rank (span p a c)) s.cuts := by
  refine ext_getElem? fun i => ?_
  refine Option.ext fun r => ?_
  simp only [getElem?_spanRanks, getElem?_cuts]
  by_cases hi : i + 1 < s.parts
  · rw [getElem?_map, getElem?_range (by omega), if_pos (by omega), if_pos (by omega),
      Option.map_some, h.ranked i hi]
    simp
  · have hout : ¬ (i + 2 < s.parts + 1) := by omega
    rw [getElem?_eq_none (by simp; omega)]
    simp [hout]

theorem mergeAt_parts : (s.mergeAt rank p i).parts = s.parts - 1 := rfl

theorem mergeAt_bounds (j : Nat) : (s.mergeAt rank p i).bounds j
    = if i + 1 ≤ j ∧ j < s.parts then s.bounds (j + 1) else s.bounds j := rfl

theorem cuts_mergeAt {i : Nat} (hi : i + 1 < s.parts) :
    (s.mergeAt rank p i).cuts = s.cuts.eraseIdx (i + 1) := by
  refine ext_getElem? fun j => ?_
  rw [getElem?_eraseIdx, getElem?_cuts, getElem?_cuts, getElem?_cuts, mergeAt_parts, mergeAt_bounds]
  by_cases hj : j < i + 1
  · rw [if_pos hj, if_neg (show ¬ (i + 1 ≤ j ∧ j < s.parts) by omega), if_pos (by omega),
      if_pos (by omega)]
  · rw [if_neg hj]
    by_cases hlt : j < s.parts
    · rw [if_pos (show i + 1 ≤ j ∧ j < s.parts by omega), if_pos (by omega), if_pos (by omega)]
    · rw [if_neg (by omega), if_neg (by omega)]

theorem Holds.mergeAt {s : Small} (h : Holds rank p s) {i : Nat} (hi : i + 1 < s.parts) :
    Holds rank p (s.mergeAt rank p i) := by
  constructor
  · rw [cuts_mergeAt s hi]
    exact h.sorted.sublist (eraseIdx_sublist _ _)
  · intro j hj
    dsimp only [Small.mergeAt] at hj ⊢
    by_cases hji : j = i
    · subst hji
      rw [if_pos (by omega), update_self]
    · have hlast : ∀ f : Nat → Nat, ∀ x : Nat,
          (if i < s.parts - 1 - 1 then update f i x else f) j = f j := by
        intro f x
        split
        · exact update_of_ne hji x f
        · rfl
      rw [hlast]
      by_cases hjp : 0 < i ∧ j = i - 1
      · obtain ⟨hpos, rfl⟩ := hjp
        rw [if_pos hpos, update_self, show i - 1 + 2 = i + 1 by omega]
      · have hbefore : ∀ f : Nat → Nat, ∀ x : Nat,
            (if 0 < i then update f (i - 1) x else f) j = f j := by
          intro f x
          split
          · exact update_of_ne (fun h => hjp ⟨by assumption, h⟩) x f
          · rfl
        rw [hbefore]
        by_cases hlow : j < i
        · -- a pair to the left keeps its boundaries
          rw [if_neg (show ¬ (i + 1 ≤ j ∧ j < s.parts) by omega),
            if_neg (show ¬ (i + 1 ≤ j + 2 ∧ j + 2 < s.parts) by omega), ← h.ranked j (by omega)]
          split
          · exact if_neg (by omega)
          · rfl
        · -- a pair to the right moves down by one
          rw [if_pos (show i + 1 ≤ j ∧ j < s.parts by omega),
            if_pos (show i + 1 ≤ j + 2 ∧ j + 2 < s.parts by omega), if_pos (by omega),
            if_pos (by omega), h.ranked (j + 1) (by omega)]

/-- The loop ends with the cuts that merging leaves. -/
theorem Holds.run {s : Small} (h : Holds rank p s) :
    (s.run rank p).cuts = mergeCuts (fun a c => rank (span p a c)) noRank s.cuts ∧
      Holds rank p (s.run rank p) := by
  fun_induction Small.run rank p s with
  | case1 s hparts hbest =>
    rw [bestPair_eq, h.map_ranks] at hbest
    rw [mergeCuts]
    split
    · exact ⟨rfl, h⟩
    · rename_i i hi
      rw [hbest] at hi
      cases hi
  | case2 s hparts i hbest ih =>
    rw [bestPair_eq, h.map_ranks] at hbest
    have hi : i + 1 < s.parts := by
      obtain ⟨r, hr, -⟩ := isLowest_of_lowest hbest
      rw [← h.map_ranks] at hr
      have := (List.getElem?_eq_some_iff.1 hr).1
      rw [length_map, length_range] at this
      omega
    rw [mergeCuts]
    split
    · rename_i hno
      rw [hbest] at hno
      cases hno
    · rename_i j hj
      cases hbest.symm.trans hj
      rw [← cuts_mergeAt s hi]
      exact ih (h.mergeAt hi)
  | case3 s hparts =>
    rw [mergeCuts]
    split
    · exact ⟨rfl, h⟩
    · rename_i i hi
      obtain ⟨r, hr, -⟩ := isLowest_of_lowest hi
      rw [← h.map_ranks] at hr
      have := (List.getElem?_eq_some_iff.1 hr).1
      rw [length_map, length_range] at this
      omega

theorem holds_start (rank : Bytes → Nat) (p : Bytes) : Holds rank p (start rank p) := by
  constructor
  · rw [cuts, start]
    simpa using pairwise_lt_range
  · intro i hi
    exact if_pos hi

end Small

end Olp.Estimate
