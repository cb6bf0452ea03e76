import Mathlib.Algebra.Order.BigOperators.Group.List
import Mathlib.Algebra.Order.Ring.Nat

/-!
# Reading bytes as UTF-8

`decodeRune` reads the code point at the start of a byte string, and a byte that starts no
valid encoding as the replacement character, one byte wide.  `symbols` reads a whole byte
string so; `At s i l` says that the symbols from byte `i` on are `l`, which determines `i`
(`At.eq`).

An ASCII byte is its own code point and no other code point is below `0x80`
(`decodeRune_ascii`, `le_decodeRune`).
-/

abbrev Olp.Bytes := List UInt8

namespace Olp.Utf8

open List

abbrev runeError : Nat := 0xFFFD

/-- The length of the encodings that start with a byte, and the range of their second byte. -/
def lead (b : Nat) : Option (Nat × Nat × Nat) :=
  if 0xC2 ≤ b ∧ b ≤ 0xDF then some (2, 0x80, 0xBF)
  else if b = 0xE0 then some (3, 0xA0, 0xBF)
  else if b = 0xED then some (3, 0x80, 0x9F)
  else if 0xE1 ≤ b ∧ b ≤ 0xEF then some (3, 0x80, 0xBF)
  else if b = 0xF0 then some (4, 0x90, 0xBF)
  else if b = 0xF4 then some (4, 0x80, 0x8F)
  else if 0xF1 ≤ b ∧ b ≤ 0xF3 then some (4, 0x80, 0xBF)
  else none

theorem lead_spec {b n low high : Nat} (h : lead b = some (n, low, high)) :
    (n = 2 ∧ (0xC2 ≤ b ∧ b ≤ 0xDF) ∧ low = 0x80 ∧ high = 0xBF) ∨
    (n = 3 ∧ (b = 0xE0 ∧ low = 0xA0 ∨ 0xE1 ≤ b ∧ b ≤ 0xEF) ∧ 0x80 ≤ low ∧ high ≤ 0xBF) ∨
    (n = 4 ∧ (b = 0xF0 ∧ low = 0x90 ∨ 0xF1 ≤ b ∧ b ≤ 0xF4) ∧ 0x80 ≤ low ∧ high ≤ 0xBF) := by
  unfold lead at h
  split_ifs at h <;> simp only [Option.some.injEq, Prod.mk.injEq] at h <;> omega

def continues (b : UInt8) : Prop := 0x80 ≤ b.toNat ∧ b.toNat ≤ 0xBF

instance (b : UInt8) : Decidable (continues b) := inferInstanceAs (Decidable (_ ∧ _))

/-- The code point that a byte that is not ASCII starts, and its width. -/
def decodeWide (b : UInt8) (s : Bytes) : Nat × Nat :=
  match lead b.toNat, s with
  | some (2, low, high), c :: _ =>
    if low ≤ c.toNat ∧ c.toNat ≤ high then (b.toNat % 32 * 64 + c.toNat % 64, 2)
    else (runeError, 1)
  | some (3, low, high), c :: d :: _ =>
    if (low ≤ c.toNat ∧ c.toNat ≤ high) ∧ continues d then
      (b.toNat % 16 * 4096 + c.toNat % 64 * 64 + d.toNat % 64, 3)
    else (runeError, 1)
  | some (4, low, high), c :: d :: e :: _ =>
    if (low ≤ c.toNat ∧ c.toNat ≤ high) ∧ continues d ∧ continues e then
      (b.toNat % 8 * 262144 + c.toNat % 64 * 4096 + d.toNat % 64 * 64 + e.toNat % 64, 4)
    else (runeError, 1)
  | _, _ => (runeError, 1)

/-- The code point at the start of a byte string and its width, which is `0` only for the
empty string. -/
def decodeRune : Bytes → Nat × Nat
  | [] => (runeError, 0)
  | b :: s => if b.toNat < 0x80 then (b.toNat, 1) else decodeWide b s

variable {b : UInt8}

theorem decodeRune_ascii (h : b.toNat < 0x80) (s : Bytes) : decodeRune (b :: s) = (b.toNat, 1) := by
  rw [decodeRune, if_pos h]

/-- What a byte that is not ASCII starts: an invalid byte, or an encoding of two, three or four
bytes. -/
theorem decodeRune_cases (h : ¬ b.toNat < 0x80) (s : Bytes) :
    decodeRune (b :: s) = (runeError, 1) ∨
    (∃ c t, s = c :: t ∧ (0xC2 ≤ b.toNat ∧ b.toNat ≤ 0xDF) ∧ continues c ∧
      decodeRune (b :: s) = (b.toNat % 32 * 64 + c.toNat % 64, 2)) ∨
    (∃ r, decodeRune (b :: s) = (r, 3) ∧ 0x800 ≤ r ∧ 3 ≤ (b :: s).length) ∨
    ∃ r, decodeRune (b :: s) = (r, 4) ∧ 0x10000 ≤ r ∧ 4 ≤ (b :: s).length := by
  rw [decodeRune, if_neg h]
  unfold decodeWide
  split
  · rename_i low high c t hlead
    split
    · rename_i hc
      have hrange := lead_spec hlead
      obtain ⟨-, hb, rfl, rfl⟩ := hrange.resolve_right (by omega)
      exact .inr (.inl ⟨c, t, rfl, hb, hc, rfl⟩)
    · exact .inl rfl
  · rename_i low high c d t hlead
    split
    · rename_i hcd
      refine .inr (.inr (.inl ⟨_, rfl, ?_, by simp⟩))
      have := lead_spec hlead
      omega
    · exact .inl rfl
  · rename_i low high c d e t hlead
    split
    · rename_i hcde
      refine .inr (.inr (.inr ⟨_, rfl, ?_, by simp⟩))
      have := lead_spec hlead
      omega
    · exact .inl rfl
  · exact .inl rfl

variable {c : UInt8}

theorem decodeRune_two (hb : 0xC2 ≤ b.toNat ∧ b.toNat ≤ 0xDF) (hc : continues c) (s : Bytes) :
    decodeRune (b :: c :: s) = (b.toNat % 32 * 64 + c.toNat % 64, 2) := by
  have hlead : lead b.toNat = some (2, 0x80, 0xBF) := by rw [lead, if_pos hb]
  rw [decodeRune, if_neg (by omega)]
  unfold decodeWide
  rw [hlead]
  exact if_pos hc

theorem le_decodeRune (h : ¬ b.toNat < 0x80) (s : Bytes) : 0x80 ≤ (decodeRune (b :: s)).1 := by
  rcases decodeRune_cases h s with hd | ⟨c, t, -, hb, -, hd⟩ | ⟨r, hd, hr, -⟩ | ⟨r, hd, hr, -⟩
  · rw [hd]
    decide
  all_goals
    rw [hd]
    omega

variable {s : Bytes}

theorem decodeRune_width (h : s ≠ []) : 0 < (decodeRune s).2 ∧ (decodeRune s).2 ≤ s.length := by
  obtain ⟨b, s, rfl⟩ := exists_cons_of_ne_nil h
  by_cases hb : b.toNat < 0x80
  · rw [decodeRune_ascii hb]
    simp
  · rcases decodeRune_cases hb s with hd | ⟨c, t, rfl, -, -, hd⟩ | ⟨r, hd, -, hlen⟩ |
      ⟨r, hd, -, hlen⟩ <;>
      rw [hd] <;> simp_all

/-! ## Symbols -/

/-- A code point as it was read, with its width in bytes. -/
structure Symbol where
  rune : Nat
  width : Nat
deriving DecidableEq, Repr

/-- The symbols of a byte string. -/
def symbols (s : Bytes) : List Symbol :=
  if _h : s = [] then []
  else ⟨(decodeRune s).1, (decodeRune s).2⟩ :: symbols (s.drop (decodeRune s).2)
termination_by s.length
decreasing_by
  have := decodeRune_width _h
  rw [List.length_drop]
  omega

@[simp] theorem symbols_nil : symbols [] = [] := by
  rw [symbols, dif_pos rfl]

theorem symbols_of_ne (h : s ≠ []) : symbols s
    = ⟨(decodeRune s).1, (decodeRune s).2⟩ :: symbols (s.drop (decodeRune s).2) := by
  rw [symbols, dif_neg h]

theorem symbols_eq_nil : symbols s = [] ↔ s = [] := by
  constructor
  · intro h
    by_contra hne
    rw [symbols_of_ne hne] at h
    cases h
  · rintro rfl
    exact symbols_nil

def width (l : List Symbol) : Nat := (l.map Symbol.width).sum

@[simp] theorem width_cons (x : Symbol) (l : List Symbol) : width (x :: l) = x.width + width l := by
  simp [width]

@[simp] theorem width_append (l m : List Symbol) : width (l ++ m) = width l + width m := by
  simp [width]

theorem width_symbols (s : Bytes) : width (symbols s) = s.length := by
  fun_induction symbols s with
  | case1 => rfl
  | case2 s h ih =>
    have := decodeRune_width h
    rw [width_cons, ih, length_drop]
    dsimp only
    omega

/-- The symbols from byte `i` of a string on. -/
structure At (s : Bytes) (i : Nat) (l : List Symbol) : Prop where
  le : i ≤ s.length
  eq : symbols (s.drop i) = l

namespace At

variable {i j : Nat} {l : List Symbol} {x : Symbol}

theorem width (h : At s i l) : i + width l = s.length := by
  have := h.le
  rw [← h.eq, width_symbols, length_drop]
  omega

theorem inj (hi : At s i l) (hj : At s j l) : i = j := by
  have h₁ := hi.width
  have h₂ := hj.width
  omega

theorem nil_iff (h : At s i l) : l = [] ↔ i = s.length := by
  rw [← h.eq, symbols_eq_nil, drop_eq_nil_iff]
  have := h.le
  omega

section

variable (h : At s i (x :: l))

include h

theorem lt : i < s.length := by
  have hne := h.nil_iff.not.1 (by simp)
  have := h.le
  omega

theorem decode : decodeRune (s.drop i) = (x.rune, x.width) := by
  have hne : s.drop i ≠ [] := fun hnil => by
    have := h.eq
    rw [hnil, symbols_nil] at this
    cases this
  have := h.eq
  rw [symbols_of_ne hne] at this
  rw [← (List.cons.inj this).1]

theorem next : At s (i + x.width) l := by
  have hlt := h.lt
  have hne : s.drop i ≠ [] := by
    rw [ne_eq, drop_eq_nil_iff]
    omega
  have heq := h.eq
  rw [symbols_of_ne hne, h.decode, drop_drop] at heq
  have hw := decodeRune_width hne
  rw [h.decode, length_drop] at hw
  exact ⟨by dsimp only at hw; omega, (List.cons.inj heq).2⟩

theorem width_pos : 0 < x.width := by
  have hlt := h.lt
  have hne : s.drop i ≠ [] := by
    rw [ne_eq, drop_eq_nil_iff]
    omega
  have hw := decodeRune_width hne
  rw [h.decode] at hw
  exact hw.1

theorem drop_eq : ∃ b t, s.drop i = b :: t ∧ s[i]? = some b := by
  refine ⟨s.get ⟨i, h.lt⟩, s.drop (i + 1), drop_eq_getElem_cons h.lt, getElem?_eq_getElem h.lt⟩

end

theorem ascii_iff (hb : b.toNat < 0x80) (h : At s i (x :: l)) :
    s[i]? = some b ↔ x.rune = b.toNat := by
  obtain ⟨c, t, hdrop, hc⟩ := h.drop_eq
  have hd := h.decode
  rw [hdrop] at hd
  rw [hc, Option.some.injEq, UInt8.ext_iff]
  by_cases hlt : c.toNat < 0x80
  · rw [decodeRune_ascii hlt] at hd
    rw [← (Prod.mk.inj hd).1]
  · have hle := le_decodeRune hlt t
    rw [hd] at hle
    omega

theorem width_ascii (h : At s i (x :: l)) (hx : x.rune < 0x80) : x.width = 1 := by
  obtain ⟨c, t, hdrop, -⟩ := h.drop_eq
  have hd := h.decode
  rw [hdrop] at hd
  by_cases hlt : c.toNat < 0x80
  · rw [decodeRune_ascii hlt] at hd
    exact (Prod.mk.inj hd).2.symm
  · have hle := le_decodeRune hlt t
    rw [hd] at hle
    omega

theorem wide_iff (hb : 0xC2 ≤ b.toNat ∧ b.toNat ≤ 0xDF) (hc : continues c) (h : At s i (x :: l)) :
    (s[i]? = some b ∧ s[i + 1]? = some c) ↔ x.rune = b.toNat % 32 * 64 + c.toNat % 64 := by
  obtain ⟨b', t, hdrop, hb'⟩ := h.drop_eq
  have hnext : s[i + 1]? = t.head? := by
    rw [← head?_drop, ← tail_drop, hdrop]
    rfl
  have hd := h.decode
  rw [hdrop] at hd
  rw [hb', hnext, Option.some.injEq]
  constructor
  · rintro ⟨rfl, ht⟩
    obtain ⟨t, rfl⟩ := head?_eq_some_iff.1 ht
    rw [decodeRune_two hb hc] at hd
    exact (Prod.mk.inj hd).1.symm
  · intro hx
    unfold continues at hc
    by_cases hlt : b'.toNat < 0x80
    · rw [decodeRune_ascii hlt] at hd
      have := (Prod.mk.inj hd).1
      omega
    rcases decodeRune_cases hlt t with he | ⟨c', t', rfl, hb₂, hc₂, he⟩ |
      ⟨r, he, hr, -⟩ | ⟨r, he, hr, -⟩
    all_goals
      rw [he] at hd
      have hrune := (Prod.mk.inj hd).1
    · have : runeError = 0xFFFD := rfl
      omega
    · unfold continues at hc₂
      rw [UInt8.ext_iff, head?_cons, Option.some.injEq, UInt8.ext_iff]
      omega
    all_goals omega

theorem width_two (hb : 0xC2 ≤ b.toNat ∧ b.toNat ≤ 0xDF) (hc : continues c) (h : At s i (x :: l))
    (h₁ : s[i]? = some b) (h₂ : s[i + 1]? = some c) : x.width = 2 := by
  obtain ⟨b', t, hdrop, hb'⟩ := h.drop_eq
  have hd := h.decode
  rw [hdrop] at hd
  cases hb'.symm.trans h₁
  rw [← head?_drop, ← tail_drop, hdrop] at h₂
  obtain ⟨t, rfl⟩ := head?_eq_some_iff.1 h₂
  rw [decodeRune_two hb hc] at hd
  exact (Prod.mk.inj hd).2.symm

theorem lt_of_suffix {m : List Symbol} (hi : At s i l) (hj : At s j m) (h : m <:+ l)
    (hlen : m.length < l.length) : i < j := by
  obtain ⟨k, rfl⟩ := h
  have hne : k ≠ [] := by
    rintro rfl
    exact Nat.lt_irrefl _ hlen
  obtain ⟨x, k, rfl⟩ := exists_cons_of_ne_nil hne
  have hpos := hi.width_pos
  have h₁ := hi.width
  have h₂ := hj.width
  rw [cons_append, width_cons, width_append] at h₁
  omega

end At

theorem at_symbols {i : Nat} (h : i ≤ s.length) : At s i (symbols (s.drop i)) := ⟨h, rfl⟩

theorem exists_at_cons {i : Nat} (h : i < s.length) : ∃ x l, At s i (x :: l) := by
  have hat := at_symbols (Nat.le_of_lt h)
  cases hl : symbols (s.drop i) with
  | nil =>
    rw [hl] at hat
    have := hat.nil_iff.1 rfl
    omega
  | cons x l => exact ⟨x, l, hl ▸ hat⟩

end Olp.Utf8
