import Mathlib.Data.Nat.Bitwise
import Mathlib.Data.List.Basic
import Mathlib.Tactic.Ring

/-!
# Words of bytes

Bytes packed into a machine word, the first byte lowest, and the test that finds in one
subtraction whether some byte of the word is below a bound: when `n` is taken from every lane,
the lowest lane that is below `n` wraps round, and as no lane under it borrows, its high bit
shows it.
-/

namespace Olp.Lanes

/-- The number whose bytes are those of a list, the first lowest. -/
def word : List UInt8 → ℕ
  | [] => 0
  | b :: bs => 2 ^ 8 * word bs + b.toNat

/-- The same number in every one of `k` lanes. -/
def lanes (n : ℕ) : ℕ → ℕ
  | 0 => 0
  | k + 1 => 2 ^ 8 * lanes n k + n

theorem testBit_seven (r : ℕ) : r.testBit 7 = decide (128 ≤ r % 256) := by
  rw [Nat.testBit_eq_decide_div_mod_eq, decide_eq_decide]
  omega

theorem testBit_lane (r k : ℕ) : r.testBit (8 * (k + 1) + 7) = (r / 2 ^ 8).testBit (8 * k + 7) := by
  rw [Nat.testBit_div_two_pow, show 8 * (k + 1) + 7 = 8 * k + 7 + 8 by omega]

variable {bs : List UInt8}

/-- When some byte is below `n`, a lane of the difference shows its high bit, and the same lane
of the word does not. -/
theorem exists_lane_of_lt {n : ℕ} (hn : n ≤ 128) (h : ∃ b ∈ bs, b.toNat < n) :
    ∀ {diff wraps : ℕ}, diff + lanes n bs.length = word bs + wraps * 2 ^ (8 * bs.length) →
      ∃ k < bs.length, diff.testBit (8 * k + 7) = true ∧ (word bs).testBit (8 * k + 7) = false := by
  induction bs with
  | nil =>
    obtain ⟨b, hb, -⟩ := h
    cases hb
  | cons a bs ih =>
    intro diff wraps hd
    have ha := a.toNat_lt
    have hp : wraps * 2 ^ (8 * (bs.length + 1)) = 2 ^ 8 * (wraps * 2 ^ (8 * bs.length)) := by
      rw [Nat.mul_succ, Nat.pow_add]
      ac_rfl
    simp only [lanes, word, List.length_cons, hp] at hd
    by_cases hlow : a.toNat < n
    · -- the lowest lane wraps round
      refine ⟨0, Nat.succ_pos _, ?_, ?_⟩
      · rw [Nat.mul_zero, Nat.zero_add, testBit_seven, decide_eq_true_iff]
        omega
      · rw [word, Nat.mul_zero, Nat.zero_add, testBit_seven, decide_eq_false_iff_not]
        omega
    · -- the lowest lane does not borrow
      have hrest : ∃ b ∈ bs, b.toNat < n := by
        obtain ⟨b, hb, hlt⟩ := h
        rcases List.mem_cons.mp hb with rfl | hb
        · exact absurd hlt hlow
        · exact ⟨b, hb, hlt⟩
      have hd' : diff / 2 ^ 8 + lanes n bs.length =
          word bs + wraps * 2 ^ (8 * bs.length) := by omega
      obtain ⟨k, hk, hdiff, hword⟩ := ih hrest hd'
      refine ⟨k + 1, Nat.succ_lt_succ hk, ?_, ?_⟩
      · rw [testBit_lane, hdiff]
      · rw [testBit_lane, word, show (2 ^ 8 * word bs + a.toNat) / 2 ^ 8 = word bs by omega, hword]

theorem word_xor (q : UInt8) (bs : List UInt8) :
    word bs ^^^ lanes q.toNat bs.length = word (bs.map (· ^^^ q)) := by
  induction bs with
  | nil => simp [word, lanes]
  | cons b bs ih =>
    rw [List.map_cons, word, List.length_cons, lanes, word, ← ih, UInt8.toNat_xor]
    apply Nat.eq_of_testBit_eq
    intro i
    have hx : b.toNat ^^^ q.toNat < 2 ^ 8 := Nat.xor_lt_two_pow b.toNat_lt q.toNat_lt
    simp only [Nat.testBit_xor, Nat.testBit_two_pow_mul_add _ b.toNat_lt,
      Nat.testBit_two_pow_mul_add _ q.toNat_lt, Nat.testBit_two_pow_mul_add _ hx]
    split <;> rfl

theorem xor_toNat_lt_one {b q : UInt8} : (b ^^^ q).toNat < 1 ↔ b = q := by
  rw [Nat.lt_one_iff, ← UInt8.xor_eq_zero_iff]
  exact ⟨fun h => UInt8.toNat_inj.mp h, fun h => by rw [h]; rfl⟩

/-! ## Machine words -/

/-- Eight bytes, as a load of a machine word reads them. -/
def pack (b0 b1 b2 b3 b4 b5 b6 b7 : UInt8) : UInt64 :=
  b0.toUInt64 ||| b1.toUInt64 <<< 8 ||| b2.toUInt64 <<< 16 ||| b3.toUInt64 <<< 24 |||
    b4.toUInt64 <<< 32 ||| b5.toUInt64 <<< 40 ||| b6.toUInt64 <<< 48 ||| b7.toUInt64 <<< 56

def ones : UInt64 := 0x0101010101010101

def highs : UInt64 := 0x8080808080808080

theorem word_lt (bs : List UInt8) : word bs < 2 ^ (8 * bs.length) := by
  induction bs with
  | nil => exact Nat.one_pos
  | cons b bs ih =>
    have hb := b.toNat_lt
    rw [word, List.length_cons, Nat.mul_succ, Nat.pow_add]
    omega

theorem word_concat (bs : List UInt8) (b : UInt8) :
    word (bs ++ [b]) = 2 ^ (8 * bs.length) * b.toNat + word bs := by
  induction bs with
  | nil => simp [word]
  | cons a bs ih =>
    rw [List.cons_append, word, ih, word, List.length_cons, Nat.mul_succ, Nat.pow_add]
    ring

variable {w : UInt64}

theorem toNat_or_shift {s : UInt64} {b : UInt8} (hw : w.toNat = word bs) {k : ℕ}
    (hl : bs.length = k) (hs : s.toNat = 8 * k) (hk : k < 8) :
    (w ||| b.toUInt64 <<< s).toNat = word (bs ++ [b]) := by
  subst hl
  have hlt : b.toNat * 2 ^ (8 * bs.length) < 2 ^ 64 := by
    calc b.toNat * 2 ^ (8 * bs.length) < 2 ^ 8 * 2 ^ (8 * bs.length) :=
          Nat.mul_lt_mul_of_pos_right b.toNat_lt (Nat.two_pow_pos _)
      _ = 2 ^ (8 + 8 * bs.length) := (Nat.pow_add ..).symm
      _ ≤ 2 ^ 64 := Nat.pow_le_pow_right (by omega) (by omega)
  rw [UInt64.toNat_or, UInt64.toNat_shiftLeft, hs, UInt8.toNat_toUInt64, hw,
    Nat.mod_eq_of_lt (show 8 * bs.length < 64 by omega), Nat.shiftLeft_eq, Nat.mod_eq_of_lt hlt,
    Nat.or_comm, Nat.mul_comm, ← Nat.two_pow_add_eq_or_of_lt (word_lt bs), word_concat]

theorem pack_toNat (b0 b1 b2 b3 b4 b5 b6 b7 : UInt8) :
    (pack b0 b1 b2 b3 b4 b5 b6 b7).toNat = word [b0, b1, b2, b3, b4, b5, b6, b7] := by
  have h0 : b0.toUInt64.toNat = word [b0] := by simp [word]
  have h1 := toNat_or_shift (s := 8) (b := b1) h0 rfl rfl (by simp)
  have h2 := toNat_or_shift (s := 16) (b := b2) h1 rfl rfl (by simp)
  have h3 := toNat_or_shift (s := 24) (b := b3) h2 rfl rfl (by simp)
  have h4 := toNat_or_shift (s := 32) (b := b4) h3 rfl rfl (by simp)
  have h5 := toNat_or_shift (s := 40) (b := b5) h4 rfl rfl (by simp)
  have h6 := toNat_or_shift (s := 48) (b := b6) h5 rfl rfl (by simp)
  exact toNat_or_shift (s := 56) (b := b7) h6 rfl rfl (by simp)

/-- The high bits of the lanes that are below what is taken from them, and maybe of others above
one that is. -/
def wrapped (w taken : UInt64) : UInt64 := (w - taken) &&& ~~~w

def Shows (w : UInt64) : Prop := ∃ k < 8, w.toNat.testBit (8 * k + 7) = true

theorem shows_wrapped {taken : UInt64} {n : ℕ} (hw : w.toNat = word bs) (hl : bs.length = 8)
    (ht : taken.toNat = lanes n 8) (hn : n ≤ 128) (h : ∃ b ∈ bs, b.toNat < n) :
    Shows (wrapped w taken) := by
  have hsub : (w - taken).toNat + lanes n bs.length =
      word bs + (((w - taken).toNat + taken.toNat) / 2 ^ 64) * 2 ^ (8 * bs.length) := by
    rw [hl, ← ht, ← hw, UInt64.toNat_sub]
    have := w.toNat_lt
    have := taken.toNat_lt
    omega
  obtain ⟨k, hk, hd, hb⟩ := exists_lane_of_lt hn h hsub
  rw [hl] at hk
  refine ⟨k, hk, ?_⟩
  have hnot : (~~~w).toNat = 2 ^ 64 - (word bs + 1) := by
    rw [UInt64.toNat_not, hw, UInt64.size, Nat.sub_sub, Nat.add_comm 1]
    rfl
  rw [wrapped, UInt64.toNat_and, Nat.testBit_and, hd, hnot,
    Nat.testBit_two_pow_sub_succ (hw ▸ w.toNat_lt), hb, Bool.true_and,
      Bool.not_false, Bool.and_true,
    decide_eq_true_iff]
  omega

theorem Shows.and_highs (h : Shows w) : w &&& highs ≠ 0 := by
  obtain ⟨k, hk, hbit⟩ := h
  have hhigh : ∀ k < 8, highs.toNat.testBit (8 * k + 7) = true := by decide
  intro hzero
  have := congrArg (fun w : UInt64 => w.toNat.testBit (8 * k + 7)) hzero
  simp [hbit, hhigh k hk] at this

theorem Shows.or_left (h : Shows w) (v : UInt64) : Shows (w ||| v) := by
  obtain ⟨k, hk, hbit⟩ := h
  refine ⟨k, hk, ?_⟩
  rw [UInt64.toNat_or, Nat.testBit_or, hbit, Bool.true_or]

theorem Shows.or_right {v : UInt64} (h : Shows v) (w : UInt64) : Shows (w ||| v) := by
  rw [UInt64.or_comm]
  exact h.or_left w

end Olp.Lanes
