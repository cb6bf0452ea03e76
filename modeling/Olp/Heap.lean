import Mathlib.Data.List.Perm.Basic
import Mathlib.Order.Lattice

/-!
# Binary heaps

A binary min-heap in a list, over any linear order: the children of position `i` are at
`2 * i + 1` and `2 * i + 2`.  `Ordered k` says that no element is below its parent, for the
parents from `k` on, and `Ordered 0` that the list is a heap.

A sift repairs one position.  `Down` and `Up` say what is in order before it: every pair
off the position, and what the position's parent has to its children.  The operations
`heapify`, `pushHeap` and `popHeap` keep the elements (`*_perm`) and leave a heap
(`*_ordered`), whose first element is the least (`Ordered.le_of_mem`).
-/

namespace Olp.Heap

open List

variable {α : Type*}

/-! ## Swapping -/

/-- Exchange two elements. -/
def swap (h : List α) (i j : Nat) : List α :=
  match h[i]?, h[j]? with
  | some a, some b => (h.set i b).set j a
  | _, _ => h

section

variable {h : List α} {i j : Nat} {a b : α}

theorem swap_eq (hi : h[i]? = some a) (hj : h[j]? = some b) : swap h i j = (h.set i b).set j a := by
  rw [swap, hi, hj]

theorem swap_perm (h : List α) (i j : Nat) : (swap h i j).Perm h := by
  rw [swap]
  split
  · rename_i a b hi hj
    obtain ⟨hi', rfl⟩ := List.getElem?_eq_some_iff.1 hi
    obtain ⟨hj', rfl⟩ := List.getElem?_eq_some_iff.1 hj
    exact set_set_perm hi' hj'
  · exact .refl _

@[simp] theorem length_swap (h : List α) (i j : Nat) : (swap h i j).length = h.length :=
  (swap_perm h i j).length_eq

theorem getElem?_swap (hi : h[i]? = some a) (hj : h[j]? = some b) (k : Nat) :
    (swap h i j)[k]? = if k = j then some a else if k = i then some b else h[k]? := by
  obtain ⟨hi', -⟩ := List.getElem?_eq_some_iff.1 hi
  obtain ⟨hj', -⟩ := List.getElem?_eq_some_iff.1 hj
  rw [swap_eq hi hj, getElem?_set, getElem?_set]
  by_cases hkj : k = j
  · subst hkj
    simp [hj']
  · by_cases hki : k = i
    · subst hki
      simp [hi', Ne.symm hkj, hkj]
    · simp [Ne.symm hkj, Ne.symm hki, hkj, hki]

end

variable [LinearOrder α]

/-! ## Sifting down -/

/-- The lesser child of a position, or the first where there is no second. -/
def child (h : List α) (i : Nat) : Nat :=
  match h[2 * i + 1]?, h[2 * i + 2]? with
  | some a, some b => if b < a then 2 * i + 2 else 2 * i + 1
  | _, _ => 2 * i + 1

theorem child_eq (h : List α) (i : Nat) : child h i = 2 * i + 1 ∨ child h i = 2 * i + 2 := by
  unfold child
  split
  · split
    · exact .inr rfl
    · exact .inl rfl
  · exact .inl rfl

variable {h : List α} {i : Nat} {y b : α}

theorem child_le {j : Nat} (hy : h[child h i]? = some y) (hj : 0 < j) (hp : (j - 1) / 2 = i)
    (hb : h[j]? = some b) : y ≤ b := by
  revert hy
  fun_cases child <;> grind

theorem exists_child {j : Nat} (hj : 0 < j) (hp : (j - 1) / 2 = i) (hb : h[j]? = some b) :
    ∃ y, h[child h i]? = some y := by
  have hlt := (List.getElem?_eq_some_iff.1 hb).1
  have hfirst : ∃ y, h[2 * i + 1]? = some y :=
    ⟨h[2 * i + 1], getElem?_eq_getElem (by omega)⟩
  unfold child
  split
  · rename_i a b' h₁ h₂
    split
    · exact ⟨b', h₂⟩
    · exact ⟨a, h₁⟩
  · exact hfirst

/-- `siftDown`: exchange an element with its lesser child until it is not above it. -/
def siftDown (h : List α) (i : Nat) : List α :=
  match _hx : h[i]?, _hy : h[child h i]? with
  | some x, some y => if x ≤ y then h else siftDown (swap h i (child h i)) (child h i)
  | _, _ => h
termination_by h.length - i
decreasing_by
  have := (List.getElem?_eq_some_iff.1 _hy).1
  have := child_eq h i
  rw [length_swap]
  omega

theorem siftDown_perm (h : List α) (i : Nat) : (siftDown h i).Perm h := by
  fun_induction siftDown h i with
  | case1 => exact .refl _
  | case2 h i x hx y hy hlt ih => exact ih.trans (swap_perm h i (child h i))
  | case3 => exact .refl _

/-- No element is below its parent, for the parents from `k` on. -/
def Ordered (k : Nat) (h : List α) : Prop :=
  ∀ j a b, 0 < j → k ≤ (j - 1) / 2 → h[(j - 1) / 2]? = some a → h[j]? = some b → a ≤ b

/-- What sifting down from a position needs: the pairs off the position are in order, and
the position's parent is not above its children. -/
structure Down (k i : Nat) (h : List α) : Prop where
  off : ∀ j a b, 0 < j → k ≤ (j - 1) / 2 → (j - 1) / 2 ≠ i →
    h[(j - 1) / 2]? = some a → h[j]? = some b → a ≤ b
  above : ∀ j a b, 0 < i → k ≤ (i - 1) / 2 → 0 < j → (j - 1) / 2 = i →
    h[(i - 1) / 2]? = some a → h[j]? = some b → a ≤ b

variable {k : Nat}

theorem Down.ordered (hd : Down k i h)
    (hi : ∀ j a b, 0 < j → (j - 1) / 2 = i → h[i]? = some a → h[j]? = some b → a ≤ b) :
    Ordered k h := by
  intro j a b hj hk ha hb
  by_cases hp : (j - 1) / 2 = i
  · exact hi j a b hj hp (hp ▸ ha) hb
  · exact hd.off j a b hj hk hp ha hb

/-- After an exchange with the lesser child, the child's position is the one to repair. -/
theorem Down.swap (hd : Down k i h) (hk : k ≤ i) {x : α} (hx : h[i]? = some x)
    (hy : h[child h i]? = some y) (hlt : ¬ x ≤ y) :
    Down k (child h i) (Heap.swap h i (child h i)) := by
  have hc := child_eq h i
  have hget := getElem?_swap hx hy
  constructor
  · intro j a b hj hkj hp ha hb
    rw [hget] at ha hb
    by_cases hji : j = i
    · -- the lesser child under the position's parent
      subst hji
      rw [if_neg (by omega), if_pos rfl] at hb
      rw [if_neg (by omega), if_neg (by omega)] at ha
      cases hb
      exact hd.above (child h j) a y hj hkj (by omega) (by omega) ha hy
    · by_cases hpi : (j - 1) / 2 = i
      · rw [hpi, if_neg (by omega), if_pos rfl] at ha
        cases ha
        by_cases hjc : j = child h i
        · rw [if_pos hjc] at hb
          cases hb
          exact le_of_lt (not_le.1 hlt)
        · rw [if_neg hjc, if_neg hji] at hb
          exact child_le hy hj hpi hb
      · rw [if_neg hp, if_neg hpi] at ha
        rw [if_neg (by omega), if_neg hji] at hb
        exact hd.off j a b hj hkj hpi ha hb
  · intro j a b _ hkc hj hp ha hb
    rw [hget] at ha hb
    have hpc : (child h i - 1) / 2 = i := by omega
    rw [hpc, if_neg (by omega), if_pos rfl] at ha
    rw [if_neg (by omega), if_neg (by omega)] at hb
    cases ha
    refine hd.off j y b hj (by omega) (by omega) ?_ hb
    rw [hp, hy]

theorem siftDown_ordered (hd : Down k i h) (hk : k ≤ i) : Ordered k (siftDown h i) := by
  fun_induction siftDown h i with
  | case1 h i x y hx hy hle =>
    refine hd.ordered ?_
    intro j a b hj hp ha hb
    cases hx.symm.trans ha
    exact hle.trans (child_le hy hj hp hb)
  | case2 h i x y hx hy hlt ih =>
    have hc := child_eq h i
    exact ih (hd.swap hk hx hy hlt) (by omega)
  | case3 h i hno =>
    refine hd.ordered ?_
    intro j a b hj hp ha hb
    obtain ⟨y, hy⟩ := exists_child hj hp hb
    exact absurd hy (hno a y ha)

/-! ## Sifting up -/

/-- The loop of `pushHeap`: exchange an element with its parent until it is not below it. -/
def siftUp (h : List α) (i : Nat) : List α :=
  if _hi : 0 < i then
    match h[(i - 1) / 2]?, h[i]? with
    | some a, some b => if a ≤ b then h else siftUp (swap h ((i - 1) / 2) i) ((i - 1) / 2)
    | _, _ => h
  else h
termination_by i
decreasing_by omega

theorem siftUp_perm (h : List α) (i : Nat) : (siftUp h i).Perm h := by
  fun_induction siftUp h i with
  | case1 | case3 | case4 => exact .refl _
  | case2 h i _ _ _ _ _ _ ih => exact ih.trans (swap_perm h ((i - 1) / 2) i)

/-- What sifting up from a position needs: the other elements are not below their parents,
and the position's children not below its parent. -/
structure Up (i : Nat) (h : List α) : Prop where
  off : ∀ j a b, 0 < j → j ≠ i → h[(j - 1) / 2]? = some a → h[j]? = some b → a ≤ b
  below : ∀ j a b, 0 < i → 0 < j → (j - 1) / 2 = i →
    h[(i - 1) / 2]? = some a → h[j]? = some b → a ≤ b

theorem Up.ordered (hu : Up i h)
    (hi : ∀ a b, 0 < i → h[(i - 1) / 2]? = some a → h[i]? = some b → a ≤ b) : Ordered 0 h := by
  intro j a b hj _ ha hb
  by_cases hji : j = i
  · subst hji
    exact hi a b hj ha hb
  · exact hu.off j a b hj hji ha hb

/-- After an exchange with the parent, the parent's position is the one to repair. -/
theorem Up.swap (hu : Up i h) (hi : 0 < i) {x : α} (hx : h[(i - 1) / 2]? = some x)
    (hy : h[i]? = some y) (hlt : ¬ x ≤ y) : Up ((i - 1) / 2) (Heap.swap h ((i - 1) / 2) i) := by
  have hget := getElem?_swap hx hy
  have hyx : y ≤ x := le_of_lt (not_le.1 hlt)
  constructor
  · intro j a b hj hne ha hb
    rw [hget] at ha hb
    by_cases hji : j = i
    · subst hji
      rw [if_neg (by omega), if_pos rfl] at ha
      rw [if_pos rfl] at hb
      cases ha
      cases hb
      exact hyx
    · rw [if_neg hji, if_neg hne] at hb
      by_cases hpi : (j - 1) / 2 = i
      · rw [if_pos hpi] at ha
        cases ha
        exact hu.below j x b hi hj hpi hx hb
      · rw [if_neg hpi] at ha
        by_cases hpq : (j - 1) / 2 = (i - 1) / 2
        · rw [if_pos hpq] at ha
          cases ha
          exact hyx.trans (hu.off j x b hj hji (hpq ▸ hx) hb)
        · rw [if_neg hpq] at ha
          exact hu.off j a b hj hji ha hb
  · intro j a b hpos hj hp ha hb
    rw [hget] at ha hb
    rw [if_neg (by omega), if_neg (by omega)] at ha
    have hax : a ≤ x := hu.off ((i - 1) / 2) a x hpos (by omega) ha hx
    by_cases hji : j = i
    · rw [if_pos hji] at hb
      cases hb
      exact hax
    · rw [if_neg hji, if_neg (by omega)] at hb
      exact hax.trans (hu.off j x b hj hji (hp ▸ hx) hb)

theorem siftUp_ordered (hu : Up i h) : Ordered 0 (siftUp h i) := by
  fun_induction siftUp h i with
  | case1 h i hi x y hy hx hle =>
    refine hu.ordered ?_
    intro a b _ ha hb
    cases hx.symm.trans ha
    cases hy.symm.trans hb
    exact hle
  | case2 h i hi x y hy hx hlt ih => exact ih (hu.swap hi hx hy hlt)
  | case3 h i hi hno =>
    refine hu.ordered ?_
    intro a b _ ha hb
    exact absurd hb (hno a b ha)
  | case4 h i hi =>
    refine hu.ordered ?_
    intro a b hpos
    exact absurd hpos hi

/-! ## Operations -/

theorem Ordered.le_of_mem (ho : Ordered 0 h) {m : α} (hm : h[0]? = some m) (hb : b ∈ h) :
    m ≤ b := by
  obtain ⟨j, hj⟩ := mem_iff_getElem?.1 hb
  induction j using Nat.strongRecOn generalizing b with
  | _ j ih =>
    by_cases hzero : j = 0
    · subst hzero
      exact (Option.some.inj (hm.symm.trans hj)).le
    · have hlt := (List.getElem?_eq_some_iff.1 hj).1
      have hp : (j - 1) / 2 < h.length := by omega
      have hget : h[(j - 1) / 2]? = some (h[(j - 1) / 2]) := getElem?_eq_getElem hp
      calc m ≤ h[(j - 1) / 2] := ih _ (by omega) (getElem_mem hp) hget
        _ ≤ b := ho j _ b (by omega) (Nat.zero_le _) hget hj

/-- The loop of `heapify`: sift down from position `n - 1` to the first. -/
def heapifyFrom : Nat → List α → List α
  | 0, h => h
  | n + 1, h => heapifyFrom n (siftDown h n)

/-- `heapify`. -/
def heapify (h : List α) : List α := heapifyFrom (h.length / 2) h

theorem heapifyFrom_perm (n : Nat) (h : List α) : (heapifyFrom n h).Perm h := by
  induction n generalizing h with
  | zero => exact .refl _
  | succ n ih => exact (ih _).trans (siftDown_perm h n)

theorem heapifyFrom_ordered {n : Nat} (ho : Ordered n h) : Ordered 0 (heapifyFrom n h) := by
  induction n generalizing h with
  | zero => exact ho
  | succ n ih =>
    refine ih (siftDown_ordered ⟨?_, ?_⟩ (Nat.le_refl n))
    · intro j a b hj hk hne ha hb
      exact ho j a b hj (by omega) ha hb
    · intro j a b hi hk
      omega

theorem heapify_perm (h : List α) : (heapify h).Perm h := heapifyFrom_perm _ h

theorem heapify_ordered (h : List α) : Ordered 0 (heapify h) := by
  refine heapifyFrom_ordered ?_
  intro j a b hj hk ha hb
  have := (List.getElem?_eq_some_iff.1 hb).1
  omega

/-- `pushHeap`. -/
def pushHeap (h : List α) (e : α) : List α := siftUp (h ++ [e]) h.length

theorem pushHeap_perm (h : List α) (e : α) : (pushHeap h e).Perm (e :: h) :=
  (siftUp_perm _ _).trans (perm_append_singleton e h)

theorem pushHeap_ordered (ho : Ordered 0 h) (e : α) : Ordered 0 (pushHeap h e) := by
  refine siftUp_ordered ⟨?_, ?_⟩
  · intro j a b hj hne ha hb
    have hlt := (List.getElem?_eq_some_iff.1 hb).1
    rw [length_append, length_singleton] at hlt
    rw [getElem?_append_left (by omega)] at ha hb
    exact ho j a b hj (Nat.zero_le _) ha hb
  · intro j a b hi hj hp ha hb
    have hlt := (List.getElem?_eq_some_iff.1 hb).1
    rw [length_append, length_singleton] at hlt
    omega

/-- `popHeap`: the last element in the place of the first, sifted down. -/
def popHeap (h : List α) : List α :=
  match h.getLast? with
  | none => h
  | some e => siftDown (h.set 0 e).dropLast 0

theorem popHeap_singleton (a : α) : popHeap [a] = [] := by
  simp [popHeap, siftDown]

theorem popHeap_concat (a : α) (init : List α) (e : α) :
    popHeap (a :: (init ++ [e])) = siftDown (e :: init) 0 := by
  have hlast : (a :: (init ++ [e])).getLast? = some e := by
    rw [← cons_append, getLast?_concat]
  rw [popHeap, hlast]
  dsimp only
  rw [set_cons_zero, ← cons_append, dropLast_concat]

theorem popHeap_perm {m : α} (hm : h[0]? = some m) : (m :: popHeap h).Perm h := by
  cases h with
  | nil => cases hm
  | cons a t =>
    obtain rfl : a = m := Option.some.inj hm
    rcases eq_nil_or_concat' t with rfl | ⟨init, e, rfl⟩
    · rw [popHeap_singleton]
    · rw [popHeap_concat]
      exact ((siftDown_perm _ _).trans (perm_append_singleton e init).symm).cons a

theorem popHeap_ordered (ho : Ordered 0 h) : Ordered 0 (popHeap h) := by
  cases h with
  | nil => exact ho
  | cons a t =>
    rcases eq_nil_or_concat' t with rfl | ⟨init, e, rfl⟩
    · rw [popHeap_singleton]
      intro j a b _ _ ha
      cases ha
    · rw [popHeap_concat]
      refine siftDown_ordered ⟨?_, ?_⟩ (Nat.le_refl 0)
      · intro j x y hj hk hne hx hy
        -- off the first position the elements are those of the old heap
        have hlt := (List.getElem?_eq_some_iff.1 hy).1
        rw [length_cons] at hlt
        refine ho j x y hj hk ?_ ?_
        · obtain ⟨q, hq⟩ : ∃ q, (j - 1) / 2 = q + 1 := ⟨(j - 1) / 2 - 1, by omega⟩
          rw [hq] at hx ⊢
          rw [getElem?_cons_succ] at hx ⊢
          rwa [getElem?_append_left (by omega)]
        · obtain ⟨q, rfl⟩ : ∃ q, j = q + 1 := ⟨j - 1, by omega⟩
          rw [getElem?_cons_succ] at hy ⊢
          rwa [getElem?_append_left (by omega)]
      · intro j x y hi
        exact absurd hi (Nat.lt_irrefl 0)

end Olp.Heap
