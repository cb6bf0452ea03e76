import Mathlib.Data.List.Basic
import Mathlib.Order.Nat

/-!
# Merging adjacent parts by rank

The procedure behind byte-pair encoding, over any alphabet.  A text is cut into parts; as
long as some two adjacent parts concatenate to a text of rank below `top`, the pair of the
lowest rank is joined, the leftmost on ties.

* `mergeAll` is the procedure on the parts themselves;
* `mergeCuts` is the same procedure on the cut points between the parts, where a pair is
  joined by deleting the cut inside it;
* `mergeAll_pieces` says that they agree.
-/

namespace Olp.PairMerge

open List

/-! ## The lowest rank -/

/-- The index of the lowest rank below `top`, the leftmost on ties. -/
def lowest (top : Nat) : List Nat → Option Nat
  | [] => none
  | r :: ranks =>
    match lowest (min r top) ranks with
    | some i => some (i + 1)
    | none => if r < top then some 0 else none

/-- An index holds the lowest rank below `top`, and every earlier rank is above it. -/
def IsLowest (top : Nat) (ranks : List Nat) (i : Nat) : Prop :=
  ∃ r, ranks[i]? = some r ∧ r < top ∧
    (∀ s ∈ ranks, r ≤ s) ∧ ∀ j < i, ∀ s, ranks[j]? = some s → r < s

variable {ranks : List Nat}

theorem lowest_eq_none {top : Nat} : lowest top ranks = none ↔ ∀ r ∈ ranks, top ≤ r := by
  induction ranks generalizing top with
  | nil => simp [lowest]
  | cons r ranks ih =>
    rw [lowest, forall_mem_cons]
    cases hl : lowest (min r top) ranks with
    | some i =>
      refine iff_of_false (by simp) fun h => ?_
      have := ih.2 fun s hs => (min_le_right r top).trans (h.2 s hs)
      rw [hl] at this
      cases this
    | none =>
      have hrest := ih.1 hl
      by_cases hr : r < top
      · exact iff_of_false (by simp [hr]) fun h => absurd hr (Nat.not_lt.2 h.1)
      · rw [Nat.min_eq_right (Nat.not_lt.1 hr)] at hrest
        simpa [hr] using ⟨Nat.not_lt.1 hr, hrest⟩

variable {i : Nat}

/-- The index found holds the lowest rank. -/
theorem isLowest_of_lowest {top : Nat} (h : lowest top ranks = some i) : IsLowest top ranks i := by
  induction ranks generalizing top i with
  | nil => cases h
  | cons r ranks ih =>
    rw [lowest] at h
    cases hl : lowest (min r top) ranks with
    | some j =>
      rw [hl] at h
      cases h
      obtain ⟨s, hs, hlt, hmin, hleft⟩ := ih hl
      refine ⟨s, hs, hlt.trans_le (min_le_right _ _), ?_, ?_⟩
      · exact forall_mem_cons.2 ⟨(hlt.trans_le (min_le_left _ _)).le, hmin⟩
      · intro k hk u hu
        cases k with
        | zero =>
          cases hu
          exact hlt.trans_le (min_le_left _ _)
        | succ k => exact hleft k (by omega) u hu
    | none =>
      rw [hl] at h
      have hrest := lowest_eq_none.1 hl
      by_cases hr : r < top
      · rw [if_pos hr] at h
        cases h
        refine ⟨r, rfl, hr, forall_mem_cons.2 ⟨Nat.le_refl r, ?_⟩, ?_⟩
        · intro s hs
          have := hrest s hs
          rwa [Nat.min_eq_left hr.le] at this
        · intro j hj
          exact absurd hj (Nat.not_lt_zero j)
      · rw [if_neg hr] at h
        cases h

theorem IsLowest.unique {top : Nat} {j : Nat} (hi : IsLowest top ranks i)
    (hj : IsLowest top ranks j) : i = j := by
  obtain ⟨r, hr, -, hmin, hleft⟩ := hi
  obtain ⟨s, hs, -, hmin', hleft'⟩ := hj
  have hrs := hmin s (mem_of_getElem? hs)
  have hsr := hmin' r (mem_of_getElem? hr)
  rcases Nat.lt_trichotomy i j with h | h | h
  · exact absurd (hleft' i h r hr) (Nat.not_lt.2 hrs)
  · exact h
  · exact absurd (hleft j h s hs) (Nat.not_lt.2 hsr)

theorem lowest_eq_some {top : Nat} : lowest top ranks = some i ↔ IsLowest top ranks i := by
  refine ⟨isLowest_of_lowest, fun hi => ?_⟩
  cases hl : lowest top ranks with
  | none =>
    obtain ⟨r, hr, hlt, -⟩ := hi
    exact absurd (lowest_eq_none.1 hl r (mem_of_getElem? hr)) (Nat.not_le.2 hlt)
  | some j => rw [(isLowest_of_lowest hl).unique hi]

/-! ## Merging parts -/

section

variable {α : Type*} (rank : List α → Nat) (top : Nat)

/-- The rank of each two adjacent parts together. -/
def pairRanks : List (List α) → List Nat
  | a :: b :: parts => rank (a ++ b) :: pairRanks (b :: parts)
  | _ => []

theorem length_pairRanks (parts : List (List α)) :
    (pairRanks rank parts).length = parts.length - 1 := by
  match parts with
  | [] => rfl
  | [_] => rfl
  | a :: b :: parts =>
    rw [pairRanks, length_cons, length_pairRanks (b :: parts)]
    simp

/-- Join part `i` with the next. -/
def joinAt : Nat → List (List α) → List (List α)
  | 0, a :: b :: parts => (a ++ b) :: parts
  | i + 1, a :: parts => a :: joinAt i parts
  | _, parts => parts

variable {parts : List (List α)}

theorem length_joinAt (h : i + 1 < parts.length) : (joinAt i parts).length + 1 = parts.length := by
  induction i generalizing parts with
  | zero =>
    match parts with
    | a :: b :: parts => simp [joinAt]
  | succ i ih =>
    match parts with
    | a :: parts =>
      rw [joinAt, length_cons, length_cons, ih (Nat.lt_of_succ_lt_succ h)]

/-- Join the pair of the lowest rank until no two adjacent parts have one below `top`. -/
def mergeAll (parts : List (List α)) : List (List α) :=
  match _h : lowest top (pairRanks rank parts) with
  | none => parts
  | some i => mergeAll (joinAt i parts)
termination_by parts.length
decreasing_by
  obtain ⟨r, hr, -⟩ := isLowest_of_lowest _h
  have hlt := (List.getElem?_eq_some_iff.1 hr).1
  rw [length_pairRanks] at hlt
  have := length_joinAt (show i + 1 < parts.length by omega)
  omega

/-- The parts of a text: the text itself if it has a rank, and otherwise what merging makes
of its letters. -/
def merged (text : List α) : List (List α) :=
  if rank text < top then [text] else mergeAll rank top (text.map fun c => [c])

variable {rank top}

theorem flatten_joinAt (i : Nat) (parts : List (List α)) :
    (joinAt i parts).flatten = parts.flatten := by
  fun_induction joinAt i parts with
  | case1 a b parts => simp
  | case2 i a parts ih => simp [ih]
  | case3 => rfl

theorem mergeAll_of_none (h : lowest top (pairRanks rank parts) = none) :
    mergeAll rank top parts = parts := by
  rw [mergeAll]
  split
  · rfl
  · next hi => cases h.symm.trans hi

theorem mergeAll_of_some (h : lowest top (pairRanks rank parts) = some i) :
    mergeAll rank top parts = mergeAll rank top (joinAt i parts) := by
  rw [mergeAll]
  split
  · next hi => cases h.symm.trans hi
  · next hi => cases h.symm.trans hi; rfl

theorem flatten_mergeAll (parts : List (List α)) :
    (mergeAll rank top parts).flatten = parts.flatten := by
  fun_induction mergeAll rank top parts with
  | case1 => rfl
  | case2 parts i _ ih => rw [ih, flatten_joinAt]

theorem mem_joinAt {r : Nat} {parts : List (List α)} (hr : (pairRanks rank parts)[i]? = some r)
    {q : List α} (hq : q ∈ joinAt i parts) : q ∈ parts ∨ rank q = r := by
  induction i generalizing parts with
  | zero =>
    match parts with
    | [] | [_] => cases hr
    | a :: b :: parts =>
      rcases mem_cons.1 hq with rfl | hq
      · exact .inr (Option.some.inj hr)
      · exact .inl (mem_cons_of_mem _ (mem_cons_of_mem _ hq))
  | succ i ih =>
    match parts with
    | [] | [_] => cases hr
    | a :: b :: parts =>
      rcases mem_cons.1 hq with rfl | hq
      · exact .inl mem_cons_self
      · exact (ih hr hq).imp (mem_cons_of_mem a) id

theorem ranked_mergeAll (h : ∀ q ∈ parts, rank q < top) :
    ∀ q ∈ mergeAll rank top parts, rank q < top := by
  fun_induction mergeAll rank top parts with
  | case1 => exact h
  | case2 parts i hlow ih =>
    obtain ⟨r, hr, hlt, -⟩ := isLowest_of_lowest hlow
    refine ih fun q hq => ?_
    rcases mem_joinAt hr hq with hq | rfl
    · exact h q hq
    · exact hlt

end

/-! ## Merging cut points -/

section

variable {α : Type*}

def span (text : List α) (a b : Nat) : List α := (text.take b).drop a

theorem span_append (text : List α) {a b c : Nat} (hab : a ≤ b) (hbc : b ≤ c) :
    span text a b ++ span text b c = span text a c := by
  have htake : text.take b = (text.take c).take b := by rw [take_take, Nat.min_eq_left hbc]
  have hsub :
      (text.take c).drop b = ((text.take c).drop b).drop (a - ((text.take c).take b).length) := by
    by_cases hb : b ≤ (text.take c).length
    · rw [length_take_of_le hb, Nat.sub_eq_zero_of_le hab, drop_zero]
    · rw [drop_eq_nil_of_le (Nat.le_of_not_le hb), drop_nil]
  rw [span, span, span, htake, hsub, ← drop_append, take_append_drop]

/-- The parts between the cut points of a text. -/
def pieces (text : List α) : List Nat → List (List α)
  | a :: b :: cuts => span text a b :: pieces text (b :: cuts)
  | _ => []

/-- The rank of each two adjacent parts together, by their cut points. -/
def spanRanks (R : Nat → Nat → Nat) : List Nat → List Nat
  | a :: b :: c :: cuts => R a c :: spanRanks R (b :: c :: cuts)
  | _ => []

theorem getElem?_spanRanks {R : Nat → Nat → Nat} {cuts : List Nat} {r : Nat} :
    (spanRanks R cuts)[i]? = some r ↔
      ∃ a c, cuts[i]? = some a ∧ cuts[i + 2]? = some c ∧ R a c = r := by
  induction i generalizing cuts with
  | zero =>
    match cuts with
    | [] | [_] | [_, _] => simp [spanRanks]
    | a :: b :: c :: cuts => simp [spanRanks]
  | succ i ih =>
    match cuts with
    | [] | [_] | [_, _] => simp [spanRanks]
    | a :: b :: c :: cuts =>
      rw [spanRanks, getElem?_cons_succ, ih]
      rfl

/-- Delete the cut inside the pair of the lowest rank until no pair has one below `top`. -/
def mergeCuts (R : Nat → Nat → Nat) (top : Nat) (cuts : List Nat) : List Nat :=
  match _h : lowest top (spanRanks R cuts) with
  | none => cuts
  | some i => mergeCuts R top (cuts.eraseIdx (i + 1))
termination_by cuts.length
decreasing_by
  obtain ⟨r, hr, -⟩ := isLowest_of_lowest _h
  obtain ⟨a, c, -, hc, -⟩ := getElem?_spanRanks.1 hr
  have hlt := (List.getElem?_eq_some_iff.1 hc).1
  have := List.length_eraseIdx_of_lt (show i + 1 < cuts.length by omega)
  omega

variable {rank : List α → Nat} {top : Nat} (text : List α)

theorem pairRanks_pieces {cuts : List Nat} (h : cuts.Pairwise (· < ·)) :
    pairRanks rank (pieces text cuts) = spanRanks (fun a c => rank (span text a c)) cuts := by
  match cuts with
  | [] | [_] | [_, _] => rfl
  | a :: b :: c :: cuts =>
    obtain ⟨ha, h⟩ := pairwise_cons.1 h
    obtain ⟨hb, -⟩ := pairwise_cons.1 h
    rw [pieces, pieces, pairRanks, spanRanks,
      span_append text (ha b (by simp)).le (hb c (by simp)).le]
    exact congrArg _ (pairRanks_pieces h)

theorem joinAt_pieces {cuts : List Nat} (h : cuts.Pairwise (· < ·)) (hi : i + 2 < cuts.length) :
    joinAt i (pieces text cuts) = pieces text (cuts.eraseIdx (i + 1)) := by
  induction i generalizing cuts with
  | zero =>
    match cuts with
    | a :: b :: c :: cuts =>
      obtain ⟨ha, h⟩ := pairwise_cons.1 h
      obtain ⟨hb, -⟩ := pairwise_cons.1 h
      rw [pieces, pieces, joinAt, span_append text (ha b (by simp)).le (hb c (by simp)).le]
      rfl
  | succ i ih =>
    match cuts with
    | a :: b :: c :: cuts =>
      have h' := (pairwise_cons.1 h).2
      rw [pieces, joinAt, ih h' (Nat.lt_of_succ_lt_succ hi)]
      rfl

theorem mergeAll_pieces {cuts : List Nat} (h : cuts.Pairwise (· < ·)) :
    mergeAll rank top (pieces text cuts)
      = pieces text (mergeCuts (fun a c => rank (span text a c)) top cuts) := by
  fun_induction mergeCuts (fun a c => rank (span text a c)) top cuts with
  | case1 cuts hlow => exact mergeAll_of_none (pairRanks_pieces text h ▸ hlow)
  | case2 cuts i hlow ih =>
    have hlt : i + 2 < cuts.length := by
      obtain ⟨r, hr, -⟩ := isLowest_of_lowest hlow
      obtain ⟨a, c, -, hc, -⟩ := getElem?_spanRanks.1 hr
      exact (List.getElem?_eq_some_iff.1 hc).1
    rw [← ih (h.sublist (eraseIdx_sublist _ _)), ← joinAt_pieces text h hlt]
    exact mergeAll_of_some (pairRanks_pieces text h ▸ hlow)

theorem length_mergeCuts_le (R : Nat → Nat → Nat) (top : Nat) (cuts : List Nat) :
    (mergeCuts R top cuts).length ≤ cuts.length := by
  fun_induction mergeCuts R top cuts with
  | case1 => exact Nat.le_refl _
  | case2 cuts i _ ih => exact ih.trans (eraseIdx_sublist _ _).length_le

theorem pieces_eq_zipWith (cuts : List Nat) :
    pieces text cuts = List.zipWith (span text) cuts cuts.tail := by
  match cuts with
  | [] | [_] => rfl
  | a :: b :: cuts =>
    rw [pieces, pieces_eq_zipWith (b :: cuts)]
    rfl

theorem length_pieces (cuts : List Nat) : (pieces text cuts).length = cuts.length - 1 := by
  rw [pieces_eq_zipWith, length_zipWith, length_tail]
  omega

theorem pieces_range' (a : Nat) {k : Nat} (h : a + k = text.length) :
    pieces text (List.range' a (k + 1)) = (text.drop a).map fun c => [c] := by
  induction k generalizing a with
  | zero =>
    have hle : text.length ≤ a := Nat.le_of_eq h.symm
    rw [drop_eq_nil_of_le hle]
    rfl
  | succ k ih =>
    have hlt : a < text.length := by omega
    rw [List.range'_succ, List.range'_succ, pieces, ← List.range'_succ, ih (a + 1) (by omega),
      drop_eq_getElem_cons hlt, map_cons]
    congr 1
    rw [span, drop_take, Nat.add_sub_cancel_left, drop_eq_getElem_cons hlt]
    rfl

end

end Olp.PairMerge
