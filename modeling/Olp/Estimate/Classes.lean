import Olp.Utf8
import Mathlib.Order.Interval.Finset.Nat

/-!
# Character classes

The classes the pre-tokenizer patterns are written in, from `classes.go`.  A code point
carries every class it belongs to as a bit, and the table that answers for all code points
has two stages: blocks of 256 code points, and an index of blocks in which block `0` stands
for the blocks no category touches.

`classOf_classes` says that the table built from the Unicode range tables answers with the
classes of a code point's category, whatever category the range tables give it.
-/

namespace Olp.Estimate

open Utf8 List Function

/-- The bit of `[\p{Lu}\p{Lt}\p{Lm}\p{Lo}\p{M}]`. -/
def cUpper : UInt8 := 1
/-- The bit of `[\p{Ll}\p{Lm}\p{Lo}\p{M}]`. -/
def cLower : UInt8 := 2
/-- The bit of `\p{L}`. -/
def cLetter : UInt8 := 4
/-- The bit of `\p{N}`. -/
def cNumber : UInt8 := 8
/-- The bit of `\s`. -/
def cSpace : UInt8 := 16

abbrev maxRune : Nat := 0x10FFFF

/-- The Unicode categories the patterns tell apart.  No letter, mark or number is whitespace. -/
inductive Category where
  | lu | lt | ll | lm | lo | mark | number | space | other
deriving DecidableEq, Repr

namespace Category

/-- The classes of a category. -/
def bits : Category → UInt8
  | lu | lt => cUpper ||| cLetter
  | ll => cLower ||| cLetter
  | lm | lo => cUpper ||| cLower ||| cLetter
  | mark => cUpper ||| cLower
  | number => cNumber
  | space => cSpace
  | other => 0

/-- The categories in `[\p{Lu}\p{Lt}\p{Lm}\p{Lo}\p{M}]`. -/
def isUpper : Category → Bool
  | lu | lt | lm | lo | mark => true
  | _ => false

/-- The categories in `[\p{Ll}\p{Lm}\p{Lo}\p{M}]`. -/
def isLower : Category → Bool
  | ll | lm | lo | mark => true
  | _ => false

/-- The categories in `\p{L}`. -/
def isLetter : Category → Bool
  | lu | lt | ll | lm | lo => true
  | _ => false

variable (c : Category)

theorem bits_upper : (c.bits &&& cUpper = 0) = (c.isUpper = false) := by
  cases c <;> decide

theorem bits_lower : (c.bits &&& cLower = 0) = (c.isLower = false) := by
  cases c <;> decide

theorem bits_letter : (c.bits &&& cLetter = 0) = (c.isLetter = false) := by
  cases c <;> decide

theorem bits_number : (c.bits &&& cNumber = 0) = (c ≠ number) := by
  cases c <;> decide

theorem bits_space : (c.bits &&& cSpace = 0) = (c ≠ space) := by
  cases c <;> decide

end Category

/-! ## The table -/

/-- A range of code points, one every `stride`. -/
structure Range where
  lo : Nat
  hi : Nat
  stride : Nat
  pos : 0 < stride

/-- The code points of a range, in the order the loop visits them. -/
def Range.runes (r : Range) : List Nat :=
  List.range' r.lo ((r.hi + r.stride - r.lo) / r.stride) r.stride

/-- A range table: the ranges below `2 ^ 16`, and the ranges above. -/
structure RangeTable where
  r16 : List Range
  r32 : List Range

def RangeTable.runes (t : RangeTable) : List Nat := (t.r16 ++ t.r32).flatMap Range.runes

/-- A two-stage table of classes, with a flat copy of the ASCII half. -/
structure ClassTable where
  ascii : Nat → UInt8
  index : Nat → Nat
  blocks : List (Nat → UInt8)

namespace ClassTable

/-- A table with the shared block only. -/
def blank : ClassTable where
  ascii := fun _ => 0
  index := fun _ => 0
  blocks := [fun _ => 0]

/-- Give a code point's block a place of its own, if it has none. -/
def claim (t : ClassTable) (r : Nat) : ClassTable :=
  if t.index (r / 256) = 0 then
    { t with
      blocks := t.blocks ++ [fun _ => 0]
      index := update t.index (r / 256) (t.blocks.length % 2 ^ 16) }
  else t

/-- Add classes to a code point. -/
def set (t : ClassTable) (r : Nat) (bits : UInt8) : ClassTable :=
  let t := t.claim r
  { t with
    blocks := t.blocks.modify (t.index (r / 256)) fun block =>
      update block (r % 256) (block (r % 256) ||| bits) }

/-- The classes of a code point. -/
def classOf (t : ClassTable) (r : Nat) : UInt8 :=
  if maxRune < r then 0 else (t.blocks[t.index (r / 256)]?).elim 0 fun block => block (r % 256)

end ClassTable

/-- The range tables of the categories, with the classes each gives. -/
def rows : List (Category × UInt8) :=
  [(.lu, cUpper ||| cLetter), (.lt, cUpper ||| cLetter), (.ll, cLower ||| cLetter),
    (.lm, cUpper ||| cLower ||| cLetter), (.lo, cUpper ||| cLower ||| cLetter),
    (.mark, cUpper ||| cLower), (.number, cNumber), (.space, cSpace)]

/-- What the loops over the range tables add to the class table. -/
def entries (unicode : Category → RangeTable) : List (Nat × UInt8) :=
  rows.flatMap fun row => (unicode row.1).runes.map fun r => (r, row.2)

/-- Build the class table. -/
def classes (unicode : Category → RangeTable) : ClassTable :=
  let t := (entries unicode).foldl (fun t e => t.set e.1 e.2) ClassTable.blank
  { t with ascii := t.classOf }

/-! ## What the table answers -/

namespace ClassTable

variable {t : ClassTable} {r q : Nat} {bits : UInt8}

/-- Every block has one place in the index, and the shared block carries nothing. -/
structure Valid (t : ClassTable) : Prop where
  shared : t.blocks[0]? = some fun _ => 0
  lt : ∀ k, t.index k < t.blocks.length
  inj : ∀ k m, t.index k = t.index m → t.index k ≠ 0 → k = m
  owner : ∀ b, 0 < b → b < t.blocks.length → ∃ k, k ≤ maxRune / 256 ∧ t.index k = b

theorem valid_blank : blank.Valid where
  shared := rfl
  lt := fun _ => Nat.one_pos
  inj := fun _ _ _ h => absurd rfl h
  owner := by
    intro b hpos hlt
    have : b < 1 := hlt
    omega

theorem Valid.length_le (h : t.Valid) : t.blocks.length ≤ maxRune / 256 + 2 := by
  have hsurj :
      Set.SurjOn t.index (Finset.range (maxRune / 256 + 1)) (Finset.Ioo 0 t.blocks.length) := by
    intro b hb
    rw [Finset.coe_Ioo, Set.mem_Ioo] at hb
    obtain ⟨k, hk, rfl⟩ := h.owner b hb.1 hb.2
    exact ⟨k, by simp only [Finset.coe_range, Set.mem_Iio]; omega, rfl⟩
  have hcard := Finset.card_le_card_of_surjOn t.index hsurj
  rw [Nat.card_Ioo, Finset.card_range] at hcard
  omega

theorem claim_of_ne (h : t.index (r / 256) ≠ 0) : t.claim r = t := by
  rw [claim, if_neg h]

variable (h : t.Valid)

include h

theorem Valid.length_mod : t.blocks.length % 2 ^ 16 = t.blocks.length := by
  have hfits : maxRune / 256 + 2 < 2 ^ 16 := by decide
  exact Nat.mod_eq_of_lt (h.length_le.trans_lt hfits)

theorem Valid.length_pos : 0 < t.blocks.length := Nat.zero_lt_of_lt (h.lt 0)

theorem Valid.claim_of_eq (h₀ : t.index (r / 256) = 0) : t.claim r = { t with
      blocks := t.blocks ++ [fun _ => 0]
      index := update t.index (r / 256) t.blocks.length } := by
  rw [claim, if_pos h₀, h.length_mod]

theorem Valid.claim (hr : r ≤ maxRune) : (t.claim r).Valid := by
  by_cases h₀ : t.index (r / 256) = 0
  · rw [h.claim_of_eq h₀]
    have hpos := h.length_pos
    constructor
    · exact (getElem?_append_left hpos).trans h.shared
    · intro k
      have := h.lt k
      simp only [update_apply, length_append, length_singleton]
      split <;> omega
    · intro k m heq hne
      simp only [update_apply] at heq hne
      have hk := h.lt k
      have hm := h.lt m
      split_ifs at heq hne with hkr hmr hmr
      · exact hkr.trans hmr.symm
      · omega
      · omega
      · exact h.inj k m heq hne
    · intro b hb hlt
      simp only [length_append, length_singleton] at hlt
      by_cases hlast : b = t.blocks.length
      · exact ⟨r / 256, Nat.div_le_div_right hr, by simp [hlast]⟩
      · obtain ⟨k, hk, rfl⟩ := h.owner b hb (by omega)
        refine ⟨k, hk, update_of_ne ?_ _ _⟩
        rintro rfl
        omega
  · rwa [claim_of_ne h₀]

theorem Valid.index_claim : (t.claim r).index (r / 256) ≠ 0 := by
  by_cases h₀ : t.index (r / 256) = 0
  · have := h.length_pos
    rw [h.claim_of_eq h₀]
    simp only [update_self]
    omega
  · rwa [claim_of_ne h₀]

theorem Valid.classOf_claim : (t.claim r).classOf q = t.classOf q := by
  by_cases h₀ : t.index (r / 256) = 0
  · rw [h.claim_of_eq h₀, classOf, classOf]
    by_cases hq : q / 256 = r / 256
    · simp [hq, h₀, h.shared]
    · dsimp only
      rw [update_of_ne hq, getElem?_append_left (h.lt _)]
  · rw [claim_of_ne h₀]

theorem Valid.set (hr : r ≤ maxRune) : (t.set r bits).Valid := by
  have hc := h.claim hr
  have hne := h.index_claim (r := r)
  have hlen : (t.set r bits).blocks.length = (t.claim r).blocks.length := length_modify ..
  constructor
  · exact (getElem?_modify_ne _ _ hne).trans hc.shared
  · intro k
    rw [hlen]
    exact hc.lt k
  · exact hc.inj
  · intro b hb hlt
    rw [hlen] at hlt
    exact hc.owner b hb hlt

theorem Valid.classOf_set (hr : r ≤ maxRune) :
    (t.set r bits).classOf q = if q = r then t.classOf q ||| bits else t.classOf q := by
  have hc := h.claim hr
  have hne := h.index_claim (r := r)
  rw [← h.classOf_claim (r := r)]
  generalize hu : t.claim r = u at hc hne
  have hset : t.set r bits = { u with
      blocks := u.blocks.modify (u.index (r / 256)) fun block =>
        update block (r % 256) (block (r % 256) ||| bits) } := by
    rw [ClassTable.set, hu]
  rw [hset, classOf, classOf]
  by_cases hq : maxRune < q
  · rw [if_pos hq, if_pos hq, if_neg (by omega)]
  rw [if_neg hq, if_neg hq]
  by_cases hblock : q / 256 = r / 256
  · rw [hblock, getElem?_modify_eq]
    have hlt := hc.lt (r / 256)
    rw [getElem?_eq_getElem hlt]
    by_cases hin : q % 256 = r % 256
    · have : q = r := by omega
      simp [this]
    · rw [if_neg (by rintro rfl; exact hin rfl)]
      simp [update_of_ne hin]
  · have hother : u.index (r / 256) ≠ u.index (q / 256) := fun heq =>
      hblock (hc.inj _ _ heq hne).symm
    rw [getElem?_modify_ne _ _ hother, if_neg (by rintro rfl; exact hblock rfl)]

end ClassTable

/-- The range tables list the code points of each category, and the line breaks and the space
are whitespace. -/
structure Consistent (unicode : Category → RangeTable) (category : Nat → Category) : Prop where
  mem_runes : ∀ c ≠ .other, ∀ r, r ∈ (unicode c).runes ↔ category r = c
  le_maxRune : ∀ r, category r ≠ .other → r ≤ maxRune
  lineFeed : category 0x0A = .space
  carriageReturn : category 0x0D = .space
  blank : category 0x20 = .space

variable {unicode : Category → RangeTable} {category : Nat → Category}

/-- The code points that were given classes have the classes of their category, and the others
have none. -/
structure Filled (category : Nat → Category) (done : List (Nat × UInt8)) (t : ClassTable) :
    Prop where
  valid : t.Valid
  none : ∀ r, (∀ e ∈ done, e.1 ≠ r) → t.classOf r = 0
  some : ∀ r, (∃ e ∈ done, e.1 = r) → t.classOf r = (category r).bits

theorem Filled.set {done : List (Nat × UInt8)} {t : ClassTable} (h : Filled category done t)
    {e : Nat × UInt8} (hle : e.1 ≤ maxRune) (hbits : e.2 = (category e.1).bits) :
    Filled category (done ++ [e]) (t.set e.1 e.2) := by
  constructor
  · exact h.valid.set hle
  · intro r hr
    rw [h.valid.classOf_set hle, if_neg (Ne.symm (hr e (by simp)))]
    exact h.none r fun d hd => hr d (mem_append_left _ hd)
  · intro r hr
    rw [h.valid.classOf_set hle]
    by_cases hold : ∃ d ∈ done, d.1 = r
    · rw [h.some r hold]
      split
      · rename_i heq
        rw [hbits, ← heq, UInt8.or_self]
      · rfl
    · have hre : r = e.1 := by
        obtain ⟨d, hd, rfl⟩ := hr
        rcases mem_append.1 hd with hd | hd
        · exact absurd ⟨d, hd, rfl⟩ hold
        · rw [mem_singleton.1 hd]
      rw [if_pos hre, h.none r fun d hd heq => hold ⟨d, hd, heq⟩, hbits, ← hre, UInt8.zero_or]

theorem Filled.run {done : List (Nat × UInt8)} {t : ClassTable} (h : Filled category done t)
    {l : List (Nat × UInt8)} (hl : ∀ e ∈ l, e.1 ≤ maxRune ∧ e.2 = (category e.1).bits) :
    Filled category (done ++ l) (l.foldl (fun t e => t.set e.1 e.2) t) := by
  induction l generalizing done t with
  | nil => simpa using h
  | cons e l ih =>
    obtain ⟨hle, hbits⟩ := hl e mem_cons_self
    have := ih (h.set hle hbits) fun d hd => hl d (mem_cons_of_mem e hd)
    simpa using this

theorem rows_bits : ∀ row ∈ rows, row.1 ≠ .other ∧ row.2 = row.1.bits := by
  decide

theorem mem_rows {c : Category} (h : c ≠ .other) : ∃ row ∈ rows, row.1 = c := by
  cases c with
  | other => exact absurd rfl h
  | _ => decide

theorem filled_blank : Filled category [] ClassTable.blank where
  valid := ClassTable.valid_blank
  none := by
    intro r _
    rw [ClassTable.classOf]
    split <;> rfl
  some := by
    rintro r ⟨e, he, -⟩
    cases he

theorem classOf_classes (h : Consistent unicode category) (r : Nat) :
    (classes unicode).classOf r = (category r).bits := by
  have hl : ∀ e ∈ entries unicode, e.1 ≤ maxRune ∧ e.2 = (category e.1).bits := by
    intro e he
    obtain ⟨row, hrow, he⟩ := mem_flatMap.1 he
    obtain ⟨q, hq, rfl⟩ := mem_map.1 he
    obtain ⟨hother, hbits⟩ := rows_bits row hrow
    have hcat := (h.mem_runes row.1 hother q).1 hq
    refine ⟨h.le_maxRune q ?_, ?_⟩
    · rwa [hcat]
    · rw [hbits, hcat]
  have hf := filled_blank.run hl
  by_cases hc : category r = .other
  · rw [hc]
    refine hf.none r ?_
    rintro e he rfl
    obtain ⟨row, hrow, he⟩ := mem_flatMap.1 he
    obtain ⟨q, hq, rfl⟩ := mem_map.1 he
    obtain ⟨hother, -⟩ := rows_bits row hrow
    exact hother (((h.mem_runes row.1 hother q).1 hq).symm.trans hc)
  · obtain ⟨row, hrow, hrc⟩ := mem_rows hc
    refine hf.some r ⟨(r, row.2), ?_, rfl⟩
    refine mem_flatMap.2 ⟨row, hrow, mem_map.2 ⟨r, ?_, rfl⟩⟩
    exact (h.mem_runes row.1 (hrc ▸ hc) r).2 hrc.symm

theorem ascii_classes (h : Consistent unicode category) (r : Nat) :
    (classes unicode).ascii r = (category r).bits :=
  classOf_classes h r

/-! ## Looking at a rune -/

namespace ClassTable

/-- The classes and width of the rune at byte `i`, read in full. -/
def decode (t : ClassTable) (s : Bytes) (i : Nat) : UInt8 × Nat :=
  (t.classOf (decodeRune (s.drop i)).1, (decodeRune (s.drop i)).2)

/-- The classes and width of the rune at byte `i`, an ASCII byte being looked up directly. -/
def look (t : ClassTable) (s : Bytes) (i : Nat) (h : i < s.length) : UInt8 × Nat :=
  if s[i].toNat < 0x80 then (t.ascii s[i].toNat, 1) else t.decode s i

theorem look_width_pos (t : ClassTable) {s : Bytes} {i : Nat} (h : i < s.length) :
    0 < (t.look s i h).2 := by
  rw [look]
  split
  · exact Nat.one_pos
  · exact (decodeRune_width (by rw [ne_eq, drop_eq_nil_iff]; omega)).1

/-- The end of the longest run of runes from byte `i` on that carry a class of the mask. -/
def run (t : ClassTable) (s : Bytes) (mask : UInt8) (i : Nat) : Nat :=
  if h : i < s.length then
    if (t.look s i h).1 &&& mask = 0 then i else run t s mask (i + (t.look s i h).2)
  else i
termination_by s.length - i
decreasing_by
  have := t.look_width_pos h
  omega

/-- The end of the longest run of runes from byte `i` on that carry no class of the mask. -/
def skip (t : ClassTable) (s : Bytes) (mask : UInt8) (i : Nat) : Nat :=
  if h : i < s.length then
    if (t.look s i h).1 &&& mask ≠ 0 then i else skip t s mask (i + (t.look s i h).2)
  else i
termination_by s.length - i
decreasing_by
  have := t.look_width_pos h
  omega

variable {s : Bytes} {i : Nat} {x : Symbol} {l : List Symbol} (hc : Consistent unicode category)

include hc

theorem look_eq (h : At s i (x :: l)) (hi : i < s.length) :
    (classes unicode).look s i hi = ((category x.rune).bits, x.width) := by
  obtain ⟨b, t, hdrop, hb⟩ := h.drop_eq
  have hget : s[i] = b := Option.some.inj ((getElem?_eq_getElem hi).symm.trans hb)
  have hd := h.decode
  rw [look, decode, hd, hget]
  split
  · rename_i hlt
    rw [hdrop, decodeRune_ascii hlt] at hd
    rw [ascii_classes hc, (Prod.mk.inj hd).1, (Prod.mk.inj hd).2]
  · rw [classOf_classes hc]

theorem run_spec {mask : UInt8} {p : Symbol → Bool}
    (hp : ∀ x, (category x.rune).bits &&& mask = 0 ↔ p x = false) (h : At s i l) :
    At s ((classes unicode).run s mask i) (l.dropWhile p) := by
  induction l generalizing i with
  | nil =>
    rw [run, dif_neg (by have := h.nil_iff.1 rfl; omega)]
    exact h
  | cons x l ih =>
    rw [run, dif_pos h.lt]
    simp only [look_eq hc h]
    by_cases hx : p x = true
    · rw [if_neg (by rw [hp]; simp [hx]), dropWhile_cons_of_pos hx]
      exact ih h.next
    · rw [if_pos (by rw [hp]; simpa using hx), dropWhile_cons_of_neg hx]
      exact h

theorem skip_spec {mask : UInt8} {p : Symbol → Bool}
    (hp : ∀ x, (category x.rune).bits &&& mask = 0 ↔ p x = true) (h : At s i l) :
    At s ((classes unicode).skip s mask i) (l.dropWhile p) := by
  induction l generalizing i with
  | nil =>
    rw [skip, dif_neg (by have := h.nil_iff.1 rfl; omega)]
    exact h
  | cons x l ih =>
    rw [skip, dif_pos h.lt]
    simp only [look_eq hc h]
    by_cases hx : p x = true
    · rw [if_neg (not_not.2 ((hp x).2 hx)), dropWhile_cons_of_pos hx]
      exact ih h.next
    · rw [if_pos ((hp x).not.2 hx), dropWhile_cons_of_neg hx]
      exact h

end ClassTable

end Olp.Estimate
