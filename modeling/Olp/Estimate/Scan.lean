import Olp.Estimate.Classes

/-!
# The pre-tokenizer scanners

Both encodings split text into pieces with a regular expression before byte-pair merging.
The scanners of `scan.go` are the expressions written out by hand: where a backtracking
engine would give symbols back, they use the last line break, the last rune that both word
classes share, or the last rune of a run of whitespace.

A `Scanner` always goes forward, so its pieces tile the text.
-/

namespace Olp.Estimate

open Utf8

def folds (lower upper : Char) (b : UInt8) : Bool := b == lower.toUInt8 || b == upper.toUInt8

/-- The width of the contraction suffix at the start of a text, or `0`.  The bytes `C5 BF` are
U+017F, which folds to `s`. -/
def contraction : Bytes → Nat
  | [] => 0
  | b :: s =>
    if folds 's' 'S' b || folds 'd' 'D' b || folds 'm' 'M' b || folds 't' 'T' b then 1
    else if folds 'l' 'L' b && s.head?.any (folds 'l' 'L') then 2
    else if (folds 'v' 'V' b || folds 'r' 'R' b) && s.head?.any (folds 'e' 'E') then 2
    else if b == 0xC5 && s.head?.any (· == 0xBF) then 2
    else 0

/-- The end of the contraction at byte `i`, if there is one. -/
def contractionEnd (s : Bytes) (i : Nat) : Option Nat :=
  if s[i]? = some '\''.toUInt8 ∧ 0 < contraction (s.drop (i + 1)) then
    some (i + 1 + contraction (s.drop (i + 1)))
  else none

/-- The end of an optional space and a run of runes that are neither whitespace, letters nor
numbers. -/
def punctuationEnd (t : ClassTable) (s : Bytes) (i : Nat) : Option Nat :=
  let j := if s[i]? = some ' '.toUInt8 then i + 1 else i
  let e := t.skip s (cSpace ||| cLetter ||| cNumber) j
  if e = j then none else some e

/-- Where a run of whitespace ends, the end of its last line break, and its last rune. -/
structure Blank where
  e : Nat
  lineBreak : Option Nat
  last : Nat

def isBreak (b : Option UInt8) : Prop := b = some '\n'.toUInt8 ∨ b = some '\r'.toUInt8

instance (b : Option UInt8) : Decidable (isBreak b) := inferInstanceAs (Decidable (_ ∨ _))

/-- The loop over a run of whitespace. -/
def blankRun (t : ClassTable) (s : Bytes) (b : Blank) : Blank :=
  if h : b.e < s.length then
    if (t.look s b.e h).1 &&& cSpace = 0 then b
    else
      blankRun t s
        { e := b.e + (t.look s b.e h).2
          lineBreak := if isBreak s[b.e]? then some (b.e + 1) else b.lineBreak
          last := b.e }
  else b
termination_by s.length - b.e
decreasing_by
  have := t.look_width_pos h
  omega

/-- The end of a piece that starts at a whitespace rune. -/
def whitespace (t : ClassTable) (s : Bytes) (i : Nat) (atEnd : Bool) : Nat :=
  let b := blankRun t s ⟨i, none, i⟩
  if b.e = s.length ∧ atEnd then b.e
  else match b.lineBreak with
    | some e => e
    | none => if b.e = s.length then b.e else if i < b.last then b.last else b.e

/-- The end of at most `n` digits. -/
def digitsEnd (t : ClassTable) (s : Bytes) : Nat → Nat → Nat
  | 0, e => e
  | n + 1, e =>
    if h : e < s.length then
      if (t.look s e h).1 &&& cNumber = 0 then e else digitsEnd t s n (e + (t.look s e h).2)
    else e

/-- The end of a run of some ASCII bytes. -/
def bytesEnd (s : Bytes) (p : UInt8 → Bool) (e : Nat) : Nat :=
  if h : e < s.length then if p s[e] then bytesEnd s p (e + 1) else e else e

/-- There is a rune at byte `i`, and it carries a class of the mask. -/
def carries (t : ClassTable) (s : Bytes) (mask : UInt8) (i : Nat) : Prop :=
  ∃ h : i < s.length, (t.look s i h).1 &&& mask ≠ 0

instance (t : ClassTable) (s : Bytes) (mask : UInt8) (i : Nat) : Decidable (carries t s mask i) :=
  inferInstanceAs (Decidable (∃ _, _))

/-- The rune at byte `i` may lead a word: it is no letter, number or line break. -/
def leads (s : Bytes) (c : UInt8) (i : Nat) : Prop :=
  c &&& (cLetter ||| cNumber) = 0 ∧ ¬ isBreak s[i]?

instance (s : Bytes) (c : UInt8) (i : Nat) : Decidable (leads s c i) :=
  inferInstanceAs (Decidable (_ ∧ _))

/-- The end of the piece at byte `i` for `cl100k_base`. -/
def scanCL100k (t : ClassTable) (s : Bytes) (i : Nat) (h : i < s.length) : Nat :=
  let (c, w) := t.look s i h
  match contractionEnd s i with
  | some e => e
  | none =>
    let j := if leads s c i then i + w else i
    if carries t s cLetter j then t.run s cLetter j
    else if c &&& cNumber ≠ 0 then digitsEnd t s 3 i
    else match punctuationEnd t s i with
      | some e => bytesEnd s (fun b => b == '\n'.toUInt8 || b == '\r'.toUInt8) e
      | none => if c &&& cSpace ≠ 0 then whitespace t s i true else i + w

/-- Extend a word that ends at byte `e` with the contraction that follows it. -/
def withContraction (s : Bytes) (e : Nat) : Nat := (contractionEnd s e).getD e

/-- The loop over the runes of the first word class, with the end of the last rune that is in
both. -/
def sharedRun (t : ClassTable) (s : Bytes) (e : Nat) (shared : Option Nat) : Nat × Option Nat :=
  if h : e < s.length then
    if (t.look s e h).1 &&& cUpper = 0 then (e, shared)
    else
      let w := (t.look s e h).2
      sharedRun t s (e + w) (if (t.look s e h).1 &&& cLower ≠ 0 then some (e + w) else shared)
  else (e, shared)
termination_by s.length - e
decreasing_by
  have := t.look_width_pos h
  omega

/-- The end of a run that holds a lower-case rune, if there is one. -/
def mixedCase (t : ClassTable) (s : Bytes) (i : Nat) : Option Nat :=
  let (e, shared) := sharedRun t s i none
  if carries t s cLower e then some (t.run s cLower e) else shared

/-- The end of a run that starts with an upper-case rune, if there is one. -/
def upperFirst (t : ClassTable) (s : Bytes) (i : Nat) : Option Nat :=
  let e := t.run s cUpper i
  if e = i then none else some (t.run s cLower e)

/-- The end of the piece at byte `i` for `o200k_base`. -/
def scanO200k (t : ClassTable) (s : Bytes) (i : Nat) (h : i < s.length) : Nat :=
  let (c, w) := t.look s i h
  let lead : Bool := leads s c i
  let word : Bool := c &&& (cUpper ||| cLower) ≠ 0
  let mixed (on : Bool) (j : Nat) := if on then mixedCase t s j else none
  let upper (on : Bool) (j : Nat) := if on then upperFirst t s j else none
  match (mixed lead (i + w)).or ((mixed word i).or ((upper lead (i + w)).or (upper word i))) with
  | some e => withContraction s e
  | none =>
    if c &&& cNumber ≠ 0 then digitsEnd t s 3 i
    else match punctuationEnd t s i with
      | some e => bytesEnd s (fun b => b == '\n'.toUInt8 || b == '\r'.toUInt8 || b == '/'.toUInt8) e
      | none => if c &&& cSpace ≠ 0 then whitespace t s i false else i + w

/-! ## Pieces -/

/-- A scanner returns the end of the piece that starts at a byte, which is not empty. -/
structure Scanner where
  scan : (s : Bytes) → (i : Nat) → i < s.length → Nat
  lt : ∀ s i h, i < scan s i h
  le : ∀ s i h, scan s i h ≤ s.length

namespace Scanner

variable (c : Scanner)

/-- The pieces of a text from byte `i` on. -/
def piecesFrom (s : Bytes) (i : Nat) : List Bytes :=
  if h : i < s.length then (s.take (c.scan s i h)).drop i :: piecesFrom s (c.scan s i h) else []
termination_by s.length - i
decreasing_by
  have := c.lt s i h
  omega

def pieces (s : Bytes) : List Bytes := c.piecesFrom s 0

theorem flatten_piecesFrom (s : Bytes) (i : Nat) : (c.piecesFrom s i).flatten = s.drop i := by
  fun_induction c.piecesFrom s i with
  | case1 i h ih =>
    have hlt := c.lt s i h
    have hlen : i ≤ (s.take (c.scan s i h)).length := by
      rw [List.length_take]
      omega
    rw [List.flatten_cons, ih, ← List.drop_append_of_le_length hlen, List.take_append_drop]
  | case2 i h =>
    rw [List.drop_eq_nil_iff.2 (Nat.le_of_not_lt h)]
    rfl

theorem flatten_pieces (s : Bytes) : (c.pieces s).flatten = s := c.flatten_piecesFrom s 0

theorem ne_nil_of_mem_pieces {s p : Bytes} {i : Nat} (hp : p ∈ c.piecesFrom s i) : p ≠ [] := by
  fun_induction c.piecesFrom s i with
  | case1 i h ih =>
    rcases List.mem_cons.1 hp with rfl | hp
    · have hlt := c.lt s i h
      rw [ne_eq, List.drop_eq_nil_iff, List.length_take]
      omega
    · exact ih hp
  | case2 i h => cases hp

end Scanner

end Olp.Estimate
