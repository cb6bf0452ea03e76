import Mathlib.Data.List.Basic

/-!
# Backtracking regular expressions

Regular expressions with the semantics of a backtracking engine, over any alphabet.  The
engine tries the ways to match in an order of priority: the first alternative before the
second, a greedy repetition as long as possible first.  `ways` lists what is left of the text
after each way, in that order; the engine reports the first (`first`).

A possessive expression keeps the first of its ways only, and a negative lookahead matches
where its expression has no way at all.

Repetitions of a class are spelled out by `descend`: as many symbols as can be taken first,
and then one less at a time.
-/

namespace Olp

open List

/-- Regular expressions over an alphabet. -/
inductive Regex (σ : Type*) where
  | /-- one symbol of a class -/ set (p : σ → Bool)
  | /-- nothing -/ empty
  | /-- one expression after another -/ seq (a b : Regex σ)
  | /-- the first expression, or else the second -/ alt (a b : Regex σ)
  | /-- any number of times, as often as possible -/ star (a : Regex σ)
  | /-- the first way to match, and no other -/ possessive (a : Regex σ)
  | /-- no match ahead -/ notAhead (a : Regex σ)
  | /-- the end of the text -/ atEnd

namespace Regex

variable {σ : Type*}

/-- Repeat some ways to match, as often as possible first, each time going forward. -/
def repeated (f : List σ → List (List σ)) : Nat → List σ → List (List σ)
  | 0, s => [s]
  | n + 1, s => ((f s).filter fun t => t.length < s.length).flatMap (repeated f n) ++ [s]

/-- What is left of a text after each way to match, in the order the engine tries them. -/
def ways : Regex σ → List σ → List (List σ)
  | set _, [] => []
  | set p, c :: s => if p c then [s] else []
  | empty, s => [s]
  | seq a b, s => (a.ways s).flatMap b.ways
  | alt a b, s => a.ways s ++ b.ways s
  | star a, s => repeated a.ways s.length s
  | possessive a, s => (a.ways s).head?.toList
  | notAhead a, s => if a.ways s = [] then [s] else []
  | atEnd, s => if s.isEmpty then [s] else []

def first (r : Regex σ) (s : List σ) : Option (List σ) := (r.ways s).head?

def plus (a : Regex σ) : Regex σ := seq a (star a)

def opt (a : Regex σ) : Regex σ := alt a empty

/-- The first of some expressions that matches. -/
def oneOf : List (Regex σ) → Regex σ
  | [] => notAhead empty
  | [a] => a
  | a :: as => alt a (oneOf as)

/-- Some expressions one after the other. -/
def chain : List (Regex σ) → Regex σ
  | [] => empty
  | [a] => a
  | a :: as => seq a (chain as)

/-! ## The first way -/

variable {p : σ → Bool} {r a b : Regex σ} {s : List σ} {c : σ}

theorem ways_alt : (alt a b).ways s = a.ways s ++ b.ways s := rfl

theorem ways_seq : (seq a b).ways s = (a.ways s).flatMap b.ways := rfl

theorem ways_set_cons : (set p).ways (c :: s) = if p c then [s] else [] := rfl

theorem ways_notAhead : (notAhead a).ways s = if a.ways s = [] then [s] else [] := rfl

theorem first_alt : first (alt a b) s = (first a s).or (first b s) := by
  rw [first, ways_alt, head?_append]
  rfl

theorem first_seq : first (seq a b) s = (a.ways s).findSome? (first b) := by
  rw [first, ways_seq, head?_flatMap]
  rfl

theorem ways_eq_nil : r.ways s = [] ↔ first r s = none := by
  rw [first, head?_eq_none_iff]

@[simp] theorem first_set_nil : first (set p) [] = none := rfl

@[simp] theorem first_set_cons : first (set p) (c :: s) = if p c then some s else none := by
  rw [first, ways_set_cons]
  split <;> rfl

@[simp] theorem first_seq_set_cons :
    first (seq (set p) r) (c :: s) = if p c then first r s else none := by
  rw [first_seq, ways_set_cons]
  split <;> simp

@[simp] theorem first_opt : first (opt a) s = some ((first a s).getD s) := by
  rw [opt, first_alt]
  cases first a s <;> rfl

theorem ways_opt : (opt a).ways s = a.ways s ++ [s] := rfl

theorem first_seq_opt : first (seq (opt a) r) s = (first (seq a r) s).or (first r s) := by
  rw [first_seq, ways_opt, findSome?_append, first_seq]
  simp

@[simp] theorem first_atEnd : first atEnd s = if s = [] then some s else none := by
  cases s <;> rfl

@[simp] theorem first_notAhead :
    first (notAhead a) s = if first a s = none then some s else none := by
  rw [first, ways_notAhead]
  by_cases h : first a s = none
  · rw [if_pos (ways_eq_nil.2 h), if_pos h]
    rfl
  · rw [if_neg (ways_eq_nil.not.2 h), if_neg h]
    rfl

theorem ways_possessive : (possessive a).ways s = (first a s).toList := rfl

@[simp] theorem first_possessive : first (possessive a) s = first a s := by
  rw [first, ways_possessive]
  cases first a s <;> rfl

theorem first_seq_possessive : first (seq (possessive a) r) s = (first a s).bind (first r) := by
  rw [first_seq, ways_possessive]
  cases first a s with
  | none => rfl
  | some t => cases h : first r t <;> simp [h]

/-! ## Repeating a class -/

/-- What is left after each number of symbols of a class, the most first. -/
def descend (p : σ → Bool) : List σ → List (List σ)
  | [] => [[]]
  | c :: s => if p c then descend p s ++ [c :: s] else [c :: s]

theorem repeated_set (n : Nat) (h : s.length ≤ n) : repeated (set p).ways n s = descend p s := by
  induction n generalizing s with
  | zero =>
    rw [length_eq_zero_iff.1 (Nat.le_zero.1 h)]
    rfl
  | succ n ih =>
    cases s with
    | nil => rfl
    | cons c s =>
      rw [repeated, ways, descend]
      split
      · simp [ih (Nat.le_of_succ_le_succ h)]
      · rfl

theorem ways_star_set : (star (set p)).ways s = descend p s := repeated_set _ (Nat.le_refl _)

theorem head?_descend : (descend p s).head? = some (s.dropWhile p) := by
  induction s with
  | nil => rfl
  | cons c s ih =>
    rw [descend]
    by_cases h : p c = true
    · rw [if_pos h, head?_append, ih, dropWhile_cons_of_pos h]
      rfl
    · rw [if_neg h, dropWhile_cons_of_neg h]
      rfl

@[simp] theorem first_star_set : first (star (set p)) s = some (s.dropWhile p) := by
  rw [first, ways_star_set, head?_descend]

/-- What follows a greedy repetition is tried after the longest run, then with a symbol given
back at a time. -/
theorem first_seq_star_cons : first (seq (star (set p)) r) (c :: s)
    = if p c then (first (seq (star (set p)) r) s).or (first r (c :: s)) else first r (c :: s) := by
  rw [first_seq, ways_star_set, descend]
  split
  · rw [findSome?_append, first_seq, ways_star_set]
    simp
  · simp

@[simp] theorem first_seq_star_nil : first (seq (star (set p)) r) [] = first r [] := by
  rw [first_seq, ways_star_set]
  simp [descend]

theorem first_plus_cons :
    first (plus (set p)) (c :: s) = if p c then some (s.dropWhile p) else none := by
  rw [plus, first_seq_set_cons, first_star_set]

/-! ## Giving symbols back -/

theorem first_seq_assoc (a b c : Regex σ) :
    first (seq a (seq b c)) s = first (seq (seq a b) c) s := by
  rw [first, first, ways_seq, ways_seq, ways_seq, flatMap_assoc]
  rfl

theorem first_seq_of_total {g : List σ → List σ} (hb : ∀ t, first b t = some (g t)) :
    first (seq a b) s = (first a s).map g := by
  rw [first_seq, first]
  cases a.ways s with
  | nil => rfl
  | cons t ts => rw [findSome?_cons_of_isSome (by rw [hb]; rfl), hb]; rfl

/-- What follows the last symbol of a run of `p` that is also in `q`. -/
def lastShared (p q : σ → Bool) : List σ → Option (List σ)
  | [] => none
  | c :: s => if p c then (lastShared p q s).or (if q c then some s else none) else none

/-- The last symbol of a run, with what follows it. -/
def lastOf (p : σ → Bool) : List σ → Option (List σ)
  | [] => none
  | c :: s => if p c then (lastOf p s).or (some (c :: s)) else none

variable {q : σ → Bool}

theorem lastShared_cons_of_neg (h : ¬ p c = true) : lastShared p q (c :: s) = none := by
  rw [lastShared, if_neg h]

theorem lastOf_cons_of_neg (h : ¬ p c = true) : lastOf p (c :: s) = none := by
  rw [lastOf, if_neg h]

/-- A run that gives symbols back to a class: the class takes the symbol after the run, or the
last symbol that both take. -/
theorem first_star_set_set : first (seq (star (set p)) (set q)) s
    = (first (set q) (s.dropWhile p)).or (lastShared p q s) := by
  induction s with
  | nil => rfl
  | cons c s ih =>
    rw [first_seq_star_cons]
    by_cases hp : p c = true
    · rw [if_pos hp, ih, dropWhile_cons_of_pos hp, lastShared, if_pos hp, Option.or_assoc,
        first_set_cons]
    · rw [if_neg hp, dropWhile_cons_of_neg hp, lastShared_cons_of_neg hp, Option.or_none]

theorem dropWhile_of_none (h : first (plus (set q)) (s.dropWhile p) = none)
    (hlast : lastShared p q s = none) : s.dropWhile q = s := by
  cases s with
  | nil => rfl
  | cons c s =>
    refine dropWhile_cons_of_neg fun hq => ?_
    by_cases hp : p c = true
    · rw [lastShared, if_pos hp, if_pos hq] at hlast
      cases hs : lastShared p q s <;> rw [hs] at hlast <;> cases hlast
    · rw [dropWhile_cons_of_neg hp, first_plus_cons, if_pos hq] at h
      cases h

/-- A run that gives symbols back to a repetition of a class, which then takes no more than
the last symbol that both take. -/
theorem first_star_set_plus : first (seq (star (set p)) (plus (set q))) s
    = (first (plus (set q)) (s.dropWhile p)).or (lastShared p q s) := by
  induction s with
  | nil => rfl
  | cons c s ih =>
    rw [first_seq_star_cons]
    by_cases hp : p c = true
    · rw [if_pos hp, ih, dropWhile_cons_of_pos hp, lastShared, if_pos hp, Option.or_assoc]
      cases hafter : first (plus (set q)) (s.dropWhile p) with
      | some t => rfl
      | none =>
        cases hlast : lastShared p q s with
        | some t => rfl
        | none => rw [first_plus_cons, dropWhile_of_none hafter hlast]
    · rw [if_neg hp, dropWhile_cons_of_neg hp, lastShared_cons_of_neg hp, Option.or_none]

/-- A run that must not end before another symbol: all of it at the end of the text, and all
but its last symbol elsewhere. -/
theorem first_star_notAhead : first (seq (star (set p)) (notAhead (set fun c => !p c))) s
    = if s.dropWhile p = [] then some [] else lastOf p s := by
  induction s with
  | nil => simp
  | cons c s ih =>
    rw [first_seq_star_cons]
    by_cases hp : p c = true
    · rw [if_pos hp, ih, dropWhile_cons_of_pos hp, lastOf, if_pos hp]
      split
      · rfl
      · simp [hp]
    · rw [if_neg hp, dropWhile_cons_of_neg hp, lastOf_cons_of_neg hp]
      simp [hp]

theorem lastOf_eq_none (h : lastOf p s = none) : s.dropWhile p = s := by
  cases s with
  | nil => rfl
  | cons c s =>
    refine dropWhile_cons_of_neg fun hp => ?_
    rw [lastOf, if_pos hp] at h
    cases hs : lastOf p s <;> rw [hs] at h <;> cases h

variable {t : List σ}

theorem suffix_of_lastOf (h : lastOf p s = some t) : t <:+ s := by
  induction s with
  | nil => cases h
  | cons c s ih =>
    rw [lastOf] at h
    split at h
    · cases hs : lastOf p s with
      | some u =>
        rw [hs] at h
        cases h
        exact (ih hs).trans (suffix_cons c s)
      | none =>
        rw [hs] at h
        cases h
        exact suffix_rfl
    · cases h

/-! ## What is left is a suffix -/

theorem suffix_of_mem_singleton (h : t ∈ [s]) : t <:+ s := by
  obtain rfl := mem_singleton.1 h
  exact suffix_rfl

theorem suffix_of_mem_repeated {f : List σ → List (List σ)} (hf : ∀ s, ∀ t ∈ f s, t <:+ s) (n : Nat)
    (h : t ∈ repeated f n s) : t <:+ s := by
  induction n generalizing s with
  | zero => exact suffix_of_mem_singleton h
  | succ n ih =>
    rcases mem_append.1 h with h | h
    · obtain ⟨u, hu, ht⟩ := mem_flatMap.1 h
      exact (ih ht).trans (hf s u (mem_filter.1 hu).1)
    · exact suffix_of_mem_singleton h

theorem suffix_of_mem_ways (r : Regex σ) (h : t ∈ r.ways s) : t <:+ s := by
  induction r generalizing s t with
  | set p =>
    cases s with
    | nil => cases h
    | cons c s =>
      rw [ways] at h
      split at h
      · rw [mem_singleton.1 h]
        exact suffix_cons c s
      · cases h
  | empty => exact suffix_of_mem_singleton h
  | seq a b iha ihb =>
    obtain ⟨u, hu, ht⟩ := mem_flatMap.1 h
    exact (ihb ht).trans (iha hu)
  | alt a b iha ihb =>
    rcases mem_append.1 h with h | h
    · exact iha h
    · exact ihb h
  | star a iha => exact suffix_of_mem_repeated (fun _ _ => iha) _ h
  | possessive a iha => exact iha (mem_of_mem_head? (Option.mem_toList.1 h))
  | notAhead a | atEnd =>
    rw [ways] at h
    split at h
    · exact suffix_of_mem_singleton h
    · cases h

/-- Expressions of which no way to match is empty, as far as their shape tells. -/
def consuming : Regex σ → Bool
  | set _ => true
  | seq a b => a.consuming || b.consuming
  | alt a b => a.consuming && b.consuming
  | possessive a => a.consuming
  | empty | star _ | notAhead _ | atEnd => false

theorem length_lt_of_mem_ways (r : Regex σ) (hr : r.consuming = true) (h : t ∈ r.ways s) :
    t.length < s.length := by
  induction r generalizing s t with
  | set p =>
    cases s with
    | nil => cases h
    | cons c s =>
      rw [ways] at h
      split at h
      · rw [mem_singleton.1 h]
        exact Nat.lt_succ_self _
      · cases h
  | seq a b iha ihb =>
    obtain ⟨u, hu, ht⟩ := mem_flatMap.1 h
    rcases Bool.or_eq_true_iff.1 hr with ha | hb
    · exact Nat.lt_of_le_of_lt (b.suffix_of_mem_ways ht).length_le (iha ha hu)
    · exact Nat.lt_of_lt_of_le (ihb hb ht) (a.suffix_of_mem_ways hu).length_le
  | alt a b iha ihb =>
    obtain ⟨ha, hb⟩ := Bool.and_eq_true_iff.1 hr
    rcases mem_append.1 h with h | h
    · exact iha ha h
    · exact ihb hb h
  | possessive a iha => exact iha hr (mem_of_mem_head? (Option.mem_toList.1 h))
  | empty | star | notAhead | atEnd => cases hr

theorem mem_ways_of_first (h : first r s = some t) : t ∈ r.ways s :=
  mem_of_mem_head? h

end Regex

end Olp
