import Mathlib.Data.Char
import Olp.Text

/-!
# Sorted sets

A sorted set maps each member to a score and keeps its members ordered by score,
members of one score in byte order.  Here it is the list of its entries in that
order; the order and the uniqueness of the members are fields, so a list that is
no sorted set cannot be built.
-/

namespace Olp.Valkey

open List

def Before (a b : Nat × Text) : Prop := a.1 < b.1 ∨ a.1 = b.1 ∧ a.2 < b.2

instance (a b : Nat × Text) : Decidable (Before a b) := inferInstanceAs (Decidable (_ ∨ _))

theorem Before.trans {a b c : Nat × Text} (h₁ : Before a b) (h₂ : Before b c) : Before a c := by
  rcases h₁ with h₁ | ⟨h₁, h₁'⟩ <;> rcases h₂ with h₂ | ⟨h₂, h₂'⟩
  · exact .inl (h₁.trans h₂)
  · exact .inl (h₂ ▸ h₁)
  · exact .inl (h₁ ▸ h₂)
  · exact .inr ⟨h₁.trans h₂, List.lt_trans h₁' h₂'⟩

theorem before_or_before {a b : Nat × Text} (h : a.2 ≠ b.2) : Before a b ∨ Before b a := by
  rcases Nat.lt_trichotomy a.1 b.1 with hlt | heq | hgt
  · exact .inl (.inl hlt)
  · rcases lt_or_gt_of_ne h with hlt | hgt
    · exact .inl (.inr ⟨heq, hlt⟩)
    · exact .inr (.inr ⟨heq.symm, hgt⟩)
  · exact .inr (.inl hgt)

/-- A sorted set, as its entries in order. -/
@[ext]
structure ZSet where
  entries : List (Nat × Text)
  sorted : entries.Pairwise Before
  nodup : (entries.map Prod.snd).Nodup

namespace ZSet

/-- The set without members, which a server keeps as an absent key. -/
def empty : ZSet := ⟨[], .nil, .nil⟩

/-- Put an entry in its place. -/
def place (e : Nat × Text) : List (Nat × Text) → List (Nat × Text)
  | [] => [e]
  | x :: xs => if Before x e then x :: place e xs else e :: x :: xs

theorem place_perm (e : Nat × Text) (l : List (Nat × Text)) : (place e l).Perm (e :: l) := by
  induction l with
  | nil => exact .refl _
  | cons x xs ih =>
    simp only [place]
    split
    · exact (ih.cons x).trans (.swap e x xs)
    · exact .refl _

theorem place_sorted {e : Nat × Text} {l : List (Nat × Text)} (h : l.Pairwise Before)
    (hne : ∀ x ∈ l, x.2 ≠ e.2) : (place e l).Pairwise Before := by
  induction l with
  | nil => simp [place]
  | cons x xs ih =>
    obtain ⟨hx, hxs⟩ := pairwise_cons.1 h
    simp only [place]
    split
    · rename_i hb
      refine pairwise_cons.2 ⟨fun y hy => ?_, ih hxs fun y hy => hne y (by simp [hy])⟩
      rcases mem_cons.1 ((place_perm e xs).mem_iff.1 hy) with rfl | hy
      · exact hb
      · exact hx y hy
    · rename_i hb
      have hex : Before e x := (before_or_before (hne x (by simp))).resolve_left hb
      refine pairwise_cons.2 ⟨fun y hy => ?_, h⟩
      rcases mem_cons.1 hy with rfl | hy
      · exact hex
      · exact hex.trans (hx y hy)

/-- The entries that satisfy a test. -/
def filter (z : ZSet) (p : Nat × Text → Bool) : ZSet where
  entries := z.entries.filter p
  sorted := z.sorted.filter p
  nodup := z.nodup.sublist (List.filter_sublist.map _)

/-- `ZREM`: drop members. -/
def rem (z : ZSet) (ms : List Text) : ZSet := z.filter fun e => e.2 ∉ ms

/-- `ZADD`: give a member a score, in place of any score it had. -/
def add (z : ZSet) (score : Nat) (member : Text) : ZSet where
  entries := place (score, member) (z.rem [member]).entries
  sorted := place_sorted (z.rem [member]).sorted fun x hx => by
    simpa [rem, filter] using (List.mem_filter.1 hx).2
  nodup := by
    refine ((place_perm _ _).map Prod.snd).nodup_iff.2 ?_
    refine List.nodup_cons.2 ⟨?_, (z.rem [member]).nodup⟩
    simp [rem, filter]

/-- `ZSCORE`. -/
def score? (z : ZSet) (member : Text) : Option Nat :=
  (z.entries.find? (·.2 == member)).map (·.1)

/-- `ZCARD`. -/
def card (z : ZSet) : Nat := z.entries.length

/-- `ZRANGEBYSCORE -inf hi LIMIT 0 limit`. -/
def rangeByScore (z : ZSet) (hi limit : Nat) : List Text :=
  ((z.entries.filter (·.1 ≤ hi)).map (·.2)).take limit

def members (z : ZSet) : Finset Text := (z.entries.map (·.2)).toFinset

/-! ## Scores -/

variable {m : Text} {s : Nat} {z : ZSet}

theorem score?_eq_some_iff : z.score? m = some s ↔ (s, m) ∈ z.entries := by
  have huniq : ∀ s' m', (s', m') ∈ z.entries → ∀ e ∈ z.entries, e.2 = m' → e = (s', m') :=
    fun s' m' h e he hm => inj_on_of_nodup_map z.nodup he h hm
  simp only [score?, Option.map_eq_some_iff]
  constructor
  · rintro ⟨e, he, rfl⟩
    have hm : e.2 = m := by simpa using find?_some he
    exact hm ▸ mem_of_find?_eq_some he
  · intro h
    cases hf : z.entries.find? (·.2 == m) with
    | none =>
      have := find?_eq_none.1 hf _ h
      simp at this
    | some e =>
      have hm : e.2 = m := by simpa using find?_some hf
      exact ⟨e, rfl, by rw [huniq s m h e (mem_of_find?_eq_some hf) hm]⟩

theorem mem_members_iff : m ∈ z.members ↔ ∃ s, z.score? m = some s := by
  simp [members, score?_eq_some_iff]

theorem card_eq (z : ZSet) : z.card = z.members.card := by
  rw [members, toFinset_card_of_nodup z.nodup, length_map, card]

@[simp] theorem score?_empty (m : Text) : empty.score? m = none := rfl

@[simp] theorem card_empty : empty.card = 0 := rfl

theorem eq_empty_of_card (h : z.card = 0) : z = empty :=
  ZSet.ext (length_eq_zero_iff.1 h)

theorem score?_filter {p : Nat × Text → Bool} :
    (z.filter p).score? m = some s ↔ z.score? m = some s ∧ p (s, m) = true := by
  simp [score?_eq_some_iff, filter]

theorem score?_rem {ms : List Text} :
    (z.rem ms).score? m = if m ∈ ms then none else z.score? m := by
  apply Option.ext
  intro s
  rw [rem, score?_filter]
  split <;> simp_all

theorem score?_add {n : Text} : (z.add s m).score? n = if n = m then some s else z.score? n := by
  apply Option.ext
  intro k
  rw [score?_eq_some_iff, add, (place_perm _ _).mem_iff, mem_cons]
  split
  · rename_i h
    subst h
    constructor
    · rintro (h | h)
      · simp_all
      · simp [rem, filter] at h
    · intro h
      exact .inl (by simp_all)
  · rename_i h
    rw [score?_eq_some_iff]
    simp [rem, filter, h]

/-! ## Ranges -/

/-- What a range by score returns: members, without repetition, whose score does
not pass the bound. -/
theorem mem_rangeByScore {hi limit : Nat} (h : m ∈ z.rangeByScore hi limit) :
    ∃ s, z.score? m = some s ∧ s ≤ hi := by
  obtain ⟨e, he, rfl⟩ := mem_map.1 (mem_of_mem_take h)
  obtain ⟨he, hle⟩ := mem_filter.1 he
  exact ⟨e.1, score?_eq_some_iff.2 he, by simpa using hle⟩

theorem nodup_rangeByScore (z : ZSet) (hi limit : Nat) : (z.rangeByScore hi limit).Nodup :=
  (z.nodup.sublist (filter_sublist.map _)).sublist (take_sublist _ _)

end ZSet

end Olp.Valkey
