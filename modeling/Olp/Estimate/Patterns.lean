import Olp.Regex
import Olp.Estimate.Scan

/-!
# The pre-tokenizer patterns

`cl100k` and `o200k` are the patterns as the source quotes them above the scanners, for any
assignment of categories to code points.  `scanCL100k_spec` and `scanO200k_spec` say that each
scanner ends where the match of its pattern ends that a backtracking engine reports.

The symbols of the text are its code points as `decodeRune` reads them: an invalid byte is one
symbol.
-/

namespace Olp.Estimate

open Utf8 List Option

/-! ## The patterns -/

def isFold (lower upper : Char) (x : Symbol) : Bool :=
  x.rune == lower.toNat || x.rune == upper.toNat

/-- A letter that folds to `s`. -/
def isFoldS (x : Symbol) : Bool := isFold 's' 'S' x || x.rune == 0x17F

/-- `[\r\n]` -/
def isLineBreak (x : Symbol) : Bool := x.rune == '\n'.toNat || x.rune == '\r'.toNat

section Classes

variable (category : Nat → Category)

/-- `\p{L}` -/
def letter (x : Symbol) : Bool := (category x.rune).isLetter

/-- `\p{N}` -/
def number (x : Symbol) : Bool := category x.rune = .number

/-- `\s` -/
def space (x : Symbol) : Bool := category x.rune = .space

/-- `[\p{Lu}\p{Lt}\p{Lm}\p{Lo}\p{M}]` -/
def upper (x : Symbol) : Bool := (category x.rune).isUpper

/-- `[\p{Ll}\p{Lm}\p{Lo}\p{M}]` -/
def lower (x : Symbol) : Bool := (category x.rune).isLower

/-- `[^\r\n\p{L}\p{N}]` -/
def lead (x : Symbol) : Bool := !(isLineBreak x || letter category x || number category x)

/-- `[^\s\p{L}\p{N}]` -/
def punctuation (x : Symbol) : Bool := !(space category x || letter category x || number category x)

end Classes

open Regex

def lit (c : Char) : Regex Symbol := set fun x => x.rune == c.toNat

def fold (lower upper : Char) : Regex Symbol := set (isFold lower upper)

/-- `{1,3}` -/
def upToThree (r : Regex Symbol) : Regex Symbol := chain [r, opt (chain [r, opt r])]

/-- `(?i:[sdmt]|ll|ve|re)` -/
def suffixes : Regex Symbol :=
  oneOf [set fun x => isFoldS x || isFold 'd' 'D' x || isFold 'm' 'M' x || isFold 't' 'T' x,
    chain [fold 'l' 'L', fold 'l' 'L'], chain [fold 'v' 'V', fold 'e' 'E'],
    chain [fold 'r' 'R', fold 'e' 'E']]

/-- `(?i:'s|'t|'re|'ve|'m|'ll|'d)` -/
def contractions : Regex Symbol :=
  oneOf [chain [lit '\'', set isFoldS], chain [lit '\'', fold 't' 'T'],
    chain [lit '\'', fold 'r' 'R', fold 'e' 'E'], chain [lit '\'', fold 'v' 'V', fold 'e' 'E'],
    chain [lit '\'', fold 'm' 'M'], chain [lit '\'', fold 'l' 'L', fold 'l' 'L'],
    chain [lit '\'', fold 'd' 'D']]

/-- The pattern of `cl100k_base`:
`'(?i:[sdmt]|ll|ve|re)|[^\r\n\p{L}\p{N}]?+\p{L}++|\p{N}{1,3}+`, and then
`| ?[^\s\p{L}\p{N}]++[\r\n]*+|\s++$|\s*[\r\n]|\s+(?!\S)|\s`. -/
def cl100k (category : Nat → Category) : Regex Symbol :=
  oneOf [
    chain [lit '\'', suffixes],
    chain [possessive (opt (set (lead category))), possessive (plus (set (letter category)))],
    possessive (upToThree (set (number category))),
    chain [opt (lit ' '), possessive (plus (set (punctuation category))),
      possessive (star (set isLineBreak))],
    chain [possessive (plus (set (space category))), atEnd],
    chain [star (set (space category)), set isLineBreak],
    chain [plus (set (space category)), notAhead (set fun x => !space category x)],
    set (space category)]

/-- The pattern of `o200k_base`, one alternative a line. -/
def o200k (category : Nat → Category) : Regex Symbol :=
  oneOf [
    chain [opt (set (lead category)), star (set (upper category)), plus (set (lower category)),
      opt contractions],
    chain [opt (set (lead category)), plus (set (upper category)), star (set (lower category)),
      opt contractions],
    upToThree (set (number category)),
    chain [opt (lit ' '), plus (set (punctuation category)),
      star (set fun x => isLineBreak x || x.rune == '/'.toNat)],
    chain [star (set (space category)), plus (set isLineBreak)],
    chain [plus (set (space category)), notAhead (set fun x => !space category x)],
    plus (set (space category))]

/-! ## Contractions -/

variable {unicode : Category → RangeTable} {category : Nat → Category}
variable {s : Bytes} {i : Nat} {x : Symbol} {l : List Symbol}

theorem isFold_iff {lower upper : Char} :
    isFold lower upper x = true ↔ x.rune = lower.toNat ∨ x.rune = upper.toNat := by
  simp [isFold]

theorem first_suffixes_cons : first suffixes (x :: l)
    = (if isFoldS x || isFold 'd' 'D' x || isFold 'm' 'M' x || isFold 't' 'T' x
      then some l else none).or
      ((if isFold 'l' 'L' x then first (fold 'l' 'L') l else none).or
        (if isFold 'v' 'V' x || isFold 'r' 'R' x then first (fold 'e' 'E') l else none)) := by
  have h : ∀ (a b : Bool) (o : Option (List Symbol)),
      (if a then o else none).or (if b then o else none) = if a || b then o else none := by
    rintro (_ | _) (_ | _) (_ | o) <;> rfl
  simp only [suffixes, oneOf, chain, first_alt, first_set_cons]
  simp only [fold, first_seq_set_cons, h]

theorem first_contractions_cons : first contractions (x :: l)
    = if x.rune == '\''.toNat then first suffixes l else none := by
  simp only [contractions, oneOf, chain, lit, first_alt, first_seq_set_cons]
  by_cases hx : x.rune == '\''.toNat
  · simp only [hx, if_true]
    cases l with
    | nil => rfl
    | cons y l =>
      rw [first_suffixes_cons]
      simp only [fold, first_seq_set_cons, first_set_cons]
      -- the letters differ, so the order in which they are tried does not matter
      by_cases hr : isFold 'r' 'R' y = true
      · rw [isFold_iff] at hr
        rcases hr with hr | hr <;> simp [isFoldS, isFold, hr]
      by_cases hv : isFold 'v' 'V' y = true
      · rw [isFold_iff] at hv
        rcases hv with hv | hv <;> simp [isFoldS, isFold, hv]
      by_cases hl : isFold 'l' 'L' y = true
      · rw [isFold_iff] at hl
        rcases hl with hl | hl <;> simp [isFoldS, isFold, hl]
      simp only [hr, hv, hl, Bool.or_false, Bool.false_eq_true, if_false]
      cases isFoldS y <;> cases isFold 'd' 'D' y <;> cases isFold 'm' 'M' y <;>
        cases isFold 't' 'T' y <;> rfl
  · simp only [hx, Bool.false_eq_true, if_false]
    rfl

theorem toNat_toUInt8 {c : Char} (hc : c.toNat < 0x80) : c.toUInt8.toNat = c.toNat := by
  exact Nat.mod_eq_of_lt (Nat.lt_trans hc (by decide))

theorem byte_eq {c : Char} (hc : c.toNat < 0x80) {b : UInt8} (h : At s i (x :: l))
    (hb : s[i]? = some b) : (b == c.toUInt8) = (x.rune == c.toNat) := by
  have hascii := h.ascii_iff (b := c.toUInt8) (by rw [toNat_toUInt8 hc]; exact hc)
  rw [hb, some.injEq, toNat_toUInt8 hc] at hascii
  rw [Bool.eq_iff_iff, beq_iff_eq, beq_iff_eq, hascii]

theorem folds_eq {lower upper : Char} (hl : lower.toNat < 0x80) (hu : upper.toNat < 0x80)
    {b : UInt8} (h : At s i (x :: l)) (hb : s[i]? = some b) :
    folds lower upper b = isFold lower upper x := by
  rw [folds, isFold, byte_eq hl h hb, byte_eq hu h hb]

theorem width_of_isFold {lower upper : Char} (hl : lower.toNat < 0x80) (hu : upper.toNat < 0x80)
    (h : At s i (x :: l)) (hx : isFold lower upper x = true) : x.width = 1 := by
  refine h.width_ascii ?_
  rcases isFold_iff.1 hx with hx | hx <;> rw [hx] <;> assumption

theorem fold_spec (lower upper : Char) (hl : lower.toNat < 0x80) (hu : upper.toNat < 0x80)
    (h : At s (i + 1) l) : Option.Rel (At s)
      (if 0 < (if (s.drop (i + 1)).head?.any (folds lower upper) then 2 else 0) then
        some (i + if (s.drop (i + 1)).head?.any (folds lower upper) then 2 else 0)
      else none)
      (first (fold lower upper) l) := by
  cases l with
  | nil =>
    rw [symbols_eq_nil.1 h.eq]
    exact .none
  | cons x l =>
    obtain ⟨b, t, hdrop, hb⟩ := h.drop_eq
    rw [fold, first_set_cons, hdrop, head?_cons, any_some, folds_eq hl hu h hb]
    by_cases hx : isFold lower upper x = true
    · have hnext := h.next
      rw [width_of_isFold hl hu h hx] at hnext
      simpa [hx] using Option.Rel.some hnext
    · simp [hx]

theorem longS_iff (h : At s i (x :: l)) :
    (s[i]? = some 0xC5 ∧ s[i + 1]? = some 0xBF) ↔ x.rune = 0x17F :=
  h.wide_iff (by decide) (by decide)

theorem contraction_spec (h : At s i l) : Option.Rel (At s)
    (if 0 < contraction (s.drop i) then some (i + contraction (s.drop i)) else none)
    (first suffixes l) := by
  cases l with
  | nil =>
    rw [symbols_eq_nil.1 h.eq]
    exact .none
  | cons x l =>
    obtain ⟨b, t, hdrop, hb⟩ := h.drop_eq
    have hfold : ∀ lower upper : Char, lower.toNat < 0x80 → upper.toNat < 0x80 →
        folds lower upper b = isFold lower upper x := fun _ _ hl hu => folds_eq hl hu h hb
    have ht : t = s.drop (i + 1) := by
      rw [← tail_drop, hdrop]
      rfl
    rw [hdrop, contraction, first_suffixes_cons]
    simp (disch := decide) only [hfold]
    by_cases hone : (isFold 's' 'S' x || isFold 'd' 'D' x || isFold 'm' 'M' x ||
        isFold 't' 'T' x) = true
    · have hnext := h.next
      have hw : x.width = 1 := by
        simp only [Bool.or_eq_true] at hone
        rcases hone with ((hx | hx) | hx) | hx <;>
          exact width_of_isFold (by decide) (by decide) h hx
      have hany :
          (isFoldS x || isFold 'd' 'D' x || isFold 'm' 'M' x || isFold 't' 'T' x) = true := by
        simp only [isFoldS, Bool.or_eq_true] at hone ⊢
        grind
      rw [hw] at hnext
      rw [if_pos hone, if_pos hany]
      exact .some hnext
    have hbytes : (b == 0xC5 && t.head?.any (· == 0xBF)) = (x.rune == 0x17F) := by
      rw [Bool.eq_iff_iff, beq_iff_eq, ← longS_iff h, hb, ← head?_drop, ← ht]
      cases t.head? <;> simp
    by_cases hlong : x.rune = 0x17F
    · have hnext := h.next
      obtain ⟨h₁, h₂⟩ := (longS_iff h).2 hlong
      rw [h.width_two (by decide) (by decide) h₁ h₂] at hnext
      simpa [hbytes, isFoldS, isFold, hlong] using hnext
    have hnone :
        ¬ (isFoldS x || isFold 'd' 'D' x || isFold 'm' 'M' x || isFold 't' 'T' x) = true := by
      simp only [isFoldS, Bool.or_eq_true, beq_iff_eq] at hone ⊢
      grind
    rw [hbytes, beq_eq_false_iff_ne.2 hlong, if_neg hone, if_neg hnone, none_or]
    by_cases hl : isFold 'l' 'L' x = true
    · have hnext := h.next
      rw [width_of_isFold (by decide) (by decide) h hl] at hnext
      have hspec := fold_spec 'l' 'L' (by decide) (by decide) hnext
      rw [← ht] at hspec
      have hv : isFold 'v' 'V' x = false := by
        rcases isFold_iff.1 hl with hx | hx <;> simp [isFold, hx]
      have hr : isFold 'r' 'R' x = false := by
        rcases isFold_iff.1 hl with hx | hx <;> simp [isFold, hx]
      simp only [hl, hv, hr, Bool.true_and, Bool.or_false, Bool.false_and, Bool.false_eq_true,
        if_true, if_false, or_none]
      exact hspec
    simp only [hl, Bool.false_and, Bool.false_eq_true, if_false, none_or]
    by_cases hvr : (isFold 'v' 'V' x || isFold 'r' 'R' x) = true
    · have hnext := h.next
      have hw : x.width = 1 := by
        rcases Bool.or_eq_true_iff.1 hvr with hx | hx <;>
          exact width_of_isFold (by decide) (by decide) h hx
      rw [hw] at hnext
      have hspec := fold_spec 'e' 'E' (by decide) (by decide) hnext
      rw [← ht] at hspec
      simp only [hvr, Bool.true_and]
      exact hspec
    · rw [if_neg hvr]
      simp only [hvr, Bool.false_and, Bool.false_eq_true, if_false]
      exact .none

theorem contractionEnd_spec (h : At s i l) :
    Option.Rel (At s) (contractionEnd s i) (first contractions l) := by
  cases l with
  | nil =>
    have hnone : s[i]? = none := by
      rw [List.getElem?_eq_none_iff, h.nil_iff.1 rfl]
    rw [contractionEnd, hnone, if_neg (by simp)]
    exact .none
  | cons x l =>
    rw [contractionEnd, first_contractions_cons]
    have hquote := h.ascii_iff (b := '\''.toUInt8) (by decide)
    by_cases hx : x.rune = '\''.toNat
    · have hnext := h.next
      rw [h.width_ascii (by rw [hx]; decide)] at hnext
      have hspec := contraction_spec hnext
      rw [if_pos (beq_iff_eq.2 hx)]
      simp only [hquote.2 hx, true_and]
      exact hspec
    · rw [if_neg fun hb => hx (hquote.1 hb.1), if_neg (by simpa using hx)]
      exact .none

/-! ## Runs -/

section

variable (x)

theorem space_mask : (category x.rune).bits &&& cSpace = 0 ↔ space category x = false := by
  rw [Category.bits_space, space, decide_eq_false_iff_not]

theorem number_mask : (category x.rune).bits &&& cNumber = 0 ↔ number category x = false := by
  rw [Category.bits_number, number, decide_eq_false_iff_not]

theorem letter_mask : (category x.rune).bits &&& cLetter = 0 ↔ letter category x = false := by
  rw [Category.bits_letter, letter]

theorem upper_mask : (category x.rune).bits &&& cUpper = 0 ↔ upper category x = false := by
  rw [Category.bits_upper, upper]

theorem lower_mask : (category x.rune).bits &&& cLower = 0 ↔ lower category x = false := by
  rw [Category.bits_lower, lower]

theorem punctuation_mask :
    (category x.rune).bits &&& (cSpace ||| cLetter ||| cNumber) = 0 ↔
      punctuation category x = true := by
  rw [punctuation, space, letter, number]
  cases category x.rune <;> decide

theorem word_mask : (category x.rune).bits &&& (cUpper ||| cLower) = 0
      ↔ upper category x = false ∧ lower category x = false := by
  rw [upper, lower]
  cases category x.rune <;> decide

end

variable {p : Symbol → Bool}

/-- At most `n` symbols of a class are taken. -/
def dropUpTo (p : Symbol → Bool) : Nat → List Symbol → List Symbol
  | 0, l => l
  | _ + 1, [] => []
  | n + 1, x :: l => if p x then dropUpTo p n l else x :: l

theorem first_upToThree_cons :
    first (upToThree (set p)) (x :: l) = if p x then some (dropUpTo p 2 l) else none := by
  change first (seq (set p) (opt (seq (set p) (opt (set p))))) (x :: l) = _
  rw [first_seq_set_cons, first_opt]
  rcases l with _ | ⟨y, _ | ⟨z, l⟩⟩
  · rfl
  · cases hy : p y <;> simp [dropUpTo, hy]
  · cases hy : p y <;> cases hz : p z <;> simp [dropUpTo, hy, hz]

theorem bytesEnd_spec {p : UInt8 → Bool} {q : Symbol → Bool}
    (hq : ∀ i x l b, At s i (x :: l) → s[i]? = some b → p b = q x ∧ (q x = true → x.width = 1))
    (h : At s i l) : At s (bytesEnd s p i) (l.dropWhile q) := by
  induction l generalizing i with
  | nil =>
    rw [bytesEnd, dif_neg (by have := h.nil_iff.1 rfl; omega)]
    exact h
  | cons x l ih =>
    obtain ⟨hpq, hw⟩ := hq i x l _ h (getElem?_eq_getElem h.lt)
    rw [bytesEnd, dif_pos h.lt, hpq]
    by_cases hx : q x = true
    · have hnext := h.next
      rw [hw hx] at hnext
      rw [if_pos hx, dropWhile_cons_of_pos hx]
      exact ih hnext
    · rw [if_neg hx, dropWhile_cons_of_neg hx]
      exact h

theorem plus_spec {e : Nat} (h : At s i l) (he : At s e (l.dropWhile p)) :
    Option.Rel (At s) (if e = i then none else some e) (first (plus (set p)) l) := by
  cases l with
  | nil =>
    rw [if_pos (he.inj h)]
    exact .none
  | cons x l =>
    rw [first_plus_cons]
    by_cases hx : p x = true
    · rw [dropWhile_cons_of_pos hx] at he
      have hlt : i < e := h.lt_of_suffix he
        ((dropWhile_suffix p).trans (suffix_cons x l))
        (Nat.lt_succ_of_le (dropWhile_suffix p).length_le)
      rw [if_neg (Nat.ne_of_gt hlt), if_pos hx]
      exact .some he
    · rw [dropWhile_cons_of_neg hx] at he
      rw [if_pos (he.inj h), if_neg hx]
      exact .none

theorem rel_or {a c : Option Nat} {b d : Option (List Symbol)} (h₁ : Option.Rel (At s) a b)
    (h₂ : Option.Rel (At s) c d) : Option.Rel (At s) (a.or c) (b.or d) := by
  cases h₁ with
  | some h => exact .some h
  | none => exact h₂

theorem withContraction_spec (h : At s i l) :
    At s (withContraction s i) ((first contractions l).getD l) := by
  have hspec := contractionEnd_spec h
  rw [withContraction]
  generalize contractionEnd s i = a, first contractions l = b at hspec
  cases hspec with
  | some hm => exact hm
  | none => exact h

theorem isBreak_iff (h : At s i (x :: l)) : isBreak s[i]? ↔ isLineBreak x = true := by
  have hn := h.ascii_iff (b := '\n'.toUInt8) (by decide)
  have hr := h.ascii_iff (b := '\r'.toUInt8) (by decide)
  rw [isBreak, hn, hr, isLineBreak, Bool.or_eq_true, beq_iff_eq, beq_iff_eq]
  rfl

theorem width_of_isLineBreak (h : At s i (x :: l)) (hx : isLineBreak x = true) : x.width = 1 := by
  refine h.width_ascii ?_
  rw [isLineBreak, Bool.or_eq_true, beq_iff_eq, beq_iff_eq] at hx
  rcases hx with hx | hx <;> rw [hx] <;> decide

theorem leads_iff (h : At s i (x :: l)) :
    leads s (category x.rune).bits i ↔ lead category x = true := by
  rw [leads, isBreak_iff h, lead, letter, number]
  cases category x.rune <;> cases isLineBreak x <;> decide

theorem bytesEnd_lineBreak (h : At s i l) :
    At s (bytesEnd s (fun b => b == '\n'.toUInt8 || b == '\r'.toUInt8) i)
      (l.dropWhile isLineBreak) := by
  refine bytesEnd_spec (fun i x l b h hb => ⟨?_, width_of_isLineBreak h⟩) h
  rw [byte_eq (by decide) h hb, byte_eq (by decide) h hb, isLineBreak]

theorem bytesEnd_slash (h : At s i l) :
    At s (bytesEnd s (fun b => b == '\n'.toUInt8 || b == '\r'.toUInt8 || b == '/'.toUInt8) i)
      (l.dropWhile fun x => isLineBreak x || x.rune == '/'.toNat) := by
  refine bytesEnd_spec (fun i x l b h hb => ⟨?_, fun hx => ?_⟩) h
  · rw [byte_eq (by decide) h hb, byte_eq (by decide) h hb, byte_eq (by decide) h hb, isLineBreak]
  · rcases Bool.or_eq_true_iff.1 hx with hx | hx
    · exact width_of_isLineBreak h hx
    · refine h.width_ascii ?_
      rw [beq_iff_eq.1 hx]
      decide

/-! ## What follows a piece -/

/-- What follows an optional space and a run of punctuation. -/
def afterPunctuation (category : Nat → Category) : List Symbol → Option (List Symbol)
  | [] => none
  | x :: l =>
    first (plus (set (punctuation category))) (if x.rune = ' '.toNat then l else x :: l)

/-- What follows the piece of whitespace that starts with a symbol before `l`. -/
def afterBlank (category : Nat → Category) (x : Symbol) (l : List Symbol) : List Symbol :=
  (lastShared (space category) isLineBreak (x :: l)).getD
    (if l.dropWhile (space category) = [] then []
    else (lastOf (space category) l).getD (l.dropWhile (space category)))

variable {r : Regex Symbol}

theorem first_notAhead_space (hx : space category x = true) :
    first (seq (plus (set (space category))) (notAhead (set fun x => !space category x))) (x :: l)
      = if l.dropWhile (space category) = [] then some [] else lastOf (space category) l := by
  rw [plus, ← first_seq_assoc, first_seq_set_cons, if_pos hx, first_star_notAhead]

theorem first_notAhead_of_neg (hx : ¬ space category x = true) :
    first (seq (plus (set (space category))) (notAhead (set fun x => !space category x))) (x :: l)
      = none := by
  rw [plus, ← first_seq_assoc, first_seq_set_cons, if_neg hx]

theorem first_word {a b : Regex Symbol} :
    first (seq (opt (set p)) (seq a (seq b (opt contractions)))) (x :: l)
      = ((if p x then first (seq a b) l else none).or (first (seq a b) (x :: l))).map
          fun m => (first contractions m).getD m := by
  have hrest : ∀ m, first (seq a (seq b (opt contractions))) m
      = (first (seq a b) m).map fun m => (first contractions m).getD m := fun m => by
    rw [first_seq_assoc, first_seq_of_total fun _ => first_opt]
  rw [first_seq_opt, first_seq_set_cons, hrest, hrest, Option.map_or]
  split <;> rfl

/-- What follows a word of `o200k`, before its contraction. -/
def afterWord (category : Nat → Category) (x : Symbol) (l : List Symbol) : Option (List Symbol) :=
  let mixed := seq (star (set (upper category))) (plus (set (lower category)))
  let upper := seq (plus (set (upper category))) (star (set (lower category)))
  (if lead category x then first mixed l else none).or ((first mixed (x :: l)).or
    ((if lead category x then first upper l else none).or (first upper (x :: l))))

theorem first_mixed_of_neg (hu : upper category x = false) (hl : lower category x = false) :
    first (seq (star (set (upper category))) (plus (set (lower category)))) (x :: l) = none := by
  rw [first_star_set_plus, dropWhile_cons_of_neg (by simp [hu]), first_plus_cons,
    lastShared_cons_of_neg (by simp [hu]), hl]
  rfl

theorem first_upper_cons :
    first (seq (plus (set (upper category))) (star (set (lower category)))) (x :: l)
      = if upper category x then
          some ((l.dropWhile (upper category)).dropWhile (lower category)) else none := by
  rw [first_seq_of_total fun _ => first_star_set, first_plus_cons]
  split <;> rfl

theorem letter_of_afterWord (h : afterWord category x l = none) : letter category x = false := by
  simp only [afterWord, or_eq_none_iff] at h
  obtain ⟨-, hmixed, -, hupper⟩ := h
  have hu : upper category x = false := by
    rw [first_upper_cons] at hupper
    by_contra hx
    rw [if_pos (by simpa using hx)] at hupper
    cases hupper
  have hl : lower category x = false := by
    by_contra hx
    rw [first_star_set_plus, dropWhile_cons_of_neg (by simp [hu]), first_plus_cons,
      if_pos (by simpa using hx)] at hmixed
    cases hmixed
  rw [letter]
  rw [upper] at hu
  rw [lower] at hl
  revert hu hl
  cases category x.rune <;> decide

/-- The match of a pattern at byte `i` that the engine reports ends at byte `e`. -/
def MatchEnds (r : Regex Symbol) (s : Bytes) (i e : Nat) : Prop :=
  ∃ rest, first r (symbols (s.drop i)) = some rest ∧ At s e rest

theorem MatchEnds.lt (hr : r.consuming = true) {e : Nat} (hi : i ≤ s.length)
    (h : MatchEnds r s i e) : i < e := by
  obtain ⟨rest, hfirst, he⟩ := h
  have hmem := mem_ways_of_first hfirst
  exact (at_symbols hi).lt_of_suffix he (r.suffix_of_mem_ways hmem)
    (r.length_lt_of_mem_ways hr hmem)

theorem MatchEnds.le {r : Regex Symbol} {e : Nat} (h : MatchEnds r s i e) : e ≤ s.length := by
  obtain ⟨rest, -, he⟩ := h
  exact he.le

/-! ## Pieces of consistent classes -/

section

variable (hc : Consistent unicode category)

include hc

section Mask

variable {mask : UInt8} (hp : ∀ x, (category x.rune).bits &&& mask = 0 ↔ p x = false) (h : At s i l)

include hp h

theorem carries_iff : carries (classes unicode) s mask i ↔ l.head?.any p = true := by
  cases l with
  | nil =>
    refine ⟨fun ⟨hlt, _⟩ => ?_, nofun⟩
    have := h.nil_iff.1 rfl
    omega
  | cons x l =>
    rw [carries, exists_prop_of_true h.lt, ClassTable.look_eq hc h, ne_eq, hp]
    simp

theorem carried_spec : Option.Rel (At s)
      (if carries (classes unicode) s mask i then some ((classes unicode).run s mask i) else none)
      (first (plus (set p)) l) := by
  have hcarries := carries_iff hc hp h
  have hrun := ClassTable.run_spec hc hp h
  cases l with
  | nil =>
    rw [if_neg (by rw [hcarries]; simp)]
    exact .none
  | cons x l =>
    rw [first_plus_cons]
    by_cases hx : p x = true
    · rw [dropWhile_cons_of_pos hx] at hrun
      rw [if_pos (hcarries.2 hx), if_pos hx]
      exact .some hrun
    · rw [if_neg fun hcar => hx (hcarries.1 hcar), if_neg hx]
      exact .none

end Mask

theorem digitsEnd_spec (n : Nat) (h : At s i l) :
    At s (digitsEnd (classes unicode) s n i) (dropUpTo (number category) n l) := by
  induction n generalizing i l with
  | zero => exact h
  | succ n ih =>
    rw [digitsEnd]
    cases l with
    | nil =>
      rw [dif_neg (by have := h.nil_iff.1 rfl; omega)]
      exact h
    | cons x l =>
      rw [dif_pos h.lt, dropUpTo]
      simp only [ClassTable.look_eq hc h, number_mask]
      cases number category x with
      | false => exact h
      | true => exact ih h.next

theorem Consistent.punctuation_blank (hx : x.rune = ' '.toNat) :
    punctuation category x = false := by
  have hspace : category x.rune = .space := by
    rw [hx]
    exact hc.blank
  simp [punctuation, space, hspace]

theorem first_punctuation {g : List Symbol → List Symbol}
    (hr : ∀ m, first r m = (first (plus (set (punctuation category))) m).map g) :
    first (seq (opt (lit ' ')) r) (x :: l) = (afterPunctuation category (x :: l)).map g := by
  rw [first_seq_opt, lit, first_seq_set_cons, afterPunctuation, hr, hr]
  by_cases hx : x.rune = ' '.toNat
  · rw [if_pos (beq_iff_eq.2 hx), if_pos hx, first_plus_cons, hc.punctuation_blank hx]
    exact or_none
  · rw [if_neg (by simpa using hx), if_neg hx]
    rfl

theorem punctuationEnd_spec (h : At s i (x :: l)) :
    Option.Rel (At s) (punctuationEnd (classes unicode) s i)
      (afterPunctuation category (x :: l)) := by
  have hblank := h.ascii_iff (b := ' '.toUInt8) (by decide)
  rw [punctuationEnd, afterPunctuation]
  by_cases hx : x.rune = ' '.toNat
  · have hnext := h.next
    rw [h.width_ascii (by rw [hx]; decide)] at hnext
    rw [if_pos (hblank.2 hx), if_pos hx]
    exact plus_spec hnext (ClassTable.skip_spec hc punctuation_mask hnext)
  · rw [if_neg fun hb => hx (hblank.1 hb), if_neg hx]
    exact plus_spec h (ClassTable.skip_spec hc punctuation_mask h)

theorem sharedRun_spec {shared : Option Nat}
    {o : Option (List Symbol)} (ho : Option.Rel (At s) shared o) (h : At s i l) :
    At s (sharedRun (classes unicode) s i shared).1 (l.dropWhile (upper category)) ∧
      Option.Rel (At s) (sharedRun (classes unicode) s i shared).2
        ((lastShared (upper category) (lower category) l).or o) := by
  induction l generalizing i shared o with
  | nil =>
    rw [sharedRun, dif_neg (by have := h.nil_iff.1 rfl; omega)]
    exact ⟨h, ho⟩
  | cons x l ih =>
    rw [sharedRun, dif_pos h.lt, lastShared]
    simp only [ClassTable.look_eq hc h, upper_mask, ne_eq, lower_mask, Bool.not_eq_false]
    by_cases hx : upper category x = true
    · rw [if_neg (by simp [hx]), dropWhile_cons_of_pos hx, if_pos hx, Option.or_assoc]
      refine ih ?_ h.next
      cases lower category x with
      | true => exact .some h.next
      | false => exact ho
    · rw [if_pos (by simpa using hx), dropWhile_cons_of_neg hx, if_neg hx]
      exact ⟨h, ho⟩

theorem mixedCase_spec (h : At s i l) : Option.Rel (At s) (mixedCase (classes unicode) s i)
      (first (seq (star (set (upper category))) (plus (set (lower category)))) l) := by
  obtain ⟨he, hshared⟩ := sharedRun_spec hc .none h
  rw [first_star_set_plus, mixedCase]
  rw [or_none] at hshared
  generalize sharedRun (classes unicode) s i none = r at he hshared
  obtain ⟨e, shared⟩ := r
  have hrun := rel_or (carried_spec hc lower_mask he) hshared
  dsimp only
  by_cases hcarries : carries (classes unicode) s cLower e
  · rw [if_pos hcarries] at hrun ⊢
    exact hrun
  · rw [if_neg hcarries] at hrun ⊢
    exact hrun

theorem upperFirst_spec (h : At s i l) : Option.Rel (At s) (upperFirst (classes unicode) s i)
      (first (seq (plus (set (upper category))) (star (set (lower category)))) l) := by
  have hrun := ClassTable.run_spec hc upper_mask h
  have hplus := plus_spec h hrun
  rw [first_seq_of_total fun _ => first_star_set, upperFirst]
  cases hfirst : first (plus (set (upper category))) l with
  | none =>
    rw [hfirst] at hplus
    split at hplus
    · rename_i heq
      rw [if_pos heq]
      exact .none
    · cases hplus
  | some m =>
    rw [hfirst] at hplus
    split at hplus
    · cases hplus
    · rename_i hne
      cases hplus with
      | some hm =>
        rw [if_neg hne]
        exact .some (ClassTable.run_spec hc lower_mask hm)

theorem word_spec (h : At s i (x :: l)) (word : Bool)
    (hword : word = false → upper category x = false ∧ lower category x = false) : Option.Rel (At s)
      ((if lead category x then mixedCase (classes unicode) s (i + x.width) else none).or
        ((if word then mixedCase (classes unicode) s i else none).or
        ((if lead category x then upperFirst (classes unicode) s (i + x.width) else none).or
        (if word then upperFirst (classes unicode) s i else none)))) (afterWord category x l) := by
  have hlead : ∀ {a : Option Nat} {o : Option (List Symbol)}, Option.Rel (At s) a o →
      Option.Rel (At s) (if lead category x then a else none)
        (if lead category x then o else none) := by
    intro a o hrel
    split
    · exact hrel
    · exact .none
  refine rel_or (hlead (mixedCase_spec hc h.next)) (rel_or ?_
    (rel_or (hlead (upperFirst_spec hc h.next)) ?_))
  · cases word with
    | true => exact mixedCase_spec hc h
    | false =>
      rw [first_mixed_of_neg (hword rfl).1 (hword rfl).2]
      exact .none
  · cases word with
    | true => exact upperFirst_spec hc h
    | false =>
      rw [first_upper_cons, (hword rfl).1]
      exact .none

theorem blankRun_spec {b : Blank} {o : Option (List Symbol)}
    {k : List Symbol} (ho : Option.Rel (At s) b.lineBreak o) (hk : At s b.last k) (h : At s b.e l) :
    At s (blankRun (classes unicode) s b).e (l.dropWhile (space category)) ∧
      Option.Rel (At s) (blankRun (classes unicode) s b).lineBreak
        ((lastShared (space category) isLineBreak l).or o) ∧
      At s (blankRun (classes unicode) s b).last ((lastOf (space category) l).getD k) := by
  induction l generalizing b o k with
  | nil =>
    rw [blankRun, dif_neg (by have := h.nil_iff.1 rfl; omega)]
    exact ⟨h, ho, hk⟩
  | cons x l ih =>
    rw [blankRun, dif_pos h.lt, lastShared, lastOf]
    simp only [ClassTable.look_eq hc h, space_mask]
    by_cases hx : space category x = true
    · rw [if_neg (by simp [hx]), dropWhile_cons_of_pos hx, if_pos hx, if_pos hx, Option.or_assoc]
      have hlast : ((lastOf (space category) l).or (some (x :: l))).getD k
          = (lastOf (space category) l).getD (x :: l) := by
        cases lastOf (space category) l <;> rfl
      rw [hlast]
      refine ih ?_ h h.next
      by_cases hbreak : isLineBreak x = true
      · have hnext := h.next
        rw [width_of_isLineBreak h hbreak] at hnext
        rw [if_pos ((isBreak_iff h).2 hbreak), if_pos hbreak]
        exact .some hnext
      · rw [if_neg fun hb => hbreak ((isBreak_iff h).1 hb), if_neg hbreak]
        exact ho
    · rw [if_pos (by simpa using hx), dropWhile_cons_of_neg hx, if_neg hx, if_neg hx]
      exact ⟨h, ho, hk⟩

theorem whitespace_spec (atEnd : Bool) (h : At s i (x :: l))
    (hx : space category x = true) : At s (whitespace (classes unicode) s i atEnd)
      (if l.dropWhile (space category) = [] ∧ atEnd then [] else afterBlank category x l) := by
  have hspec := blankRun_spec hc (b := ⟨i, none, i⟩) .none h h
  rw [whitespace, afterBlank]
  generalize blankRun (classes unicode) s ⟨i, none, i⟩ = b at hspec
  obtain ⟨he, hbreak, hlast⟩ := hspec
  rw [dropWhile_cons_of_pos hx] at he
  rw [or_none] at hbreak
  rw [lastOf, if_pos hx] at hlast
  have hlen := he.nil_iff
  by_cases hend : b.e = s.length ∧ atEnd
  · rw [if_pos hend, if_pos ⟨hlen.2 hend.1, hend.2⟩]
    rwa [hlen.2 hend.1] at he
  · have hrest : ¬ (l.dropWhile (space category) = [] ∧ atEnd = true) := fun hd =>
      hend ⟨hlen.1 hd.1, hd.2⟩
    rw [if_neg hend, if_neg hrest]
    generalize b.lineBreak = o, lastShared (space category) isLineBreak (x :: l) = o' at hbreak
    cases hbreak with
    | some hm => exact hm
    | none =>
      by_cases hall : b.e = s.length
      · rw [if_pos hall, if_pos (hlen.2 hall)]
        rwa [hlen.2 hall] at he
      · rw [if_neg hall, if_neg (hlen.not.2 hall)]
        cases hof : lastOf (space category) l with
        | some m =>
          rw [hof] at hlast
          have hsuffix := suffix_of_lastOf hof
          have hlt : i < b.last := h.lt_of_suffix hlast (hsuffix.trans (suffix_cons x l))
            (Nat.lt_succ_of_le hsuffix.length_le)
          rw [if_pos hlt]
          exact hlast
        | none =>
          rw [hof] at hlast
          have hlast' : b.last = i := hlast.inj h
          rw [if_neg (by omega)]
          exact he

theorem Consistent.space_of_isLineBreak (hx : isLineBreak x = true) : space category x = true := by
  rw [isLineBreak, Bool.or_eq_true, beq_iff_eq, beq_iff_eq] at hx
  rw [space, decide_eq_true_iff]
  rcases hx with hx | hx <;> rw [hx]
  · exact hc.lineFeed
  · exact hc.carriageReturn

theorem Consistent.first_isLineBreak :
    first (seq (set isLineBreak) r) (l.dropWhile (space category)) = none := by
  cases h : l.dropWhile (space category) with
  | nil => rfl
  | cons y m =>
    have hy : ¬ space category y = true := by
      have := head?_dropWhile_not (space category) l
      rw [h] at this
      simpa using this
    rw [first_seq_set_cons, if_neg fun hb => hy (hc.space_of_isLineBreak hb)]

theorem Consistent.first_lineBreak : first (seq (star (set (space category))) (set isLineBreak)) l
      = lastShared (space category) isLineBreak l := by
  have hnone := hc.first_isLineBreak (l := l) (r := empty)
  rw [first_seq_of_total (g := id) fun _ => rfl, Option.map_id_fun, id] at hnone
  rw [first_star_set_set, hnone]
  rfl

theorem Consistent.first_lineBreaks :
    first (seq (star (set (space category))) (plus (set isLineBreak))) l
      = lastShared (space category) isLineBreak l := by
  rw [first_star_set_plus, plus, hc.first_isLineBreak]
  rfl

theorem Consistent.first_blank_cl100k :
    (first (seq (possessive (plus (set (space category)))) atEnd) (x :: l)).or
      ((first (seq (star (set (space category))) (set isLineBreak)) (x :: l)).or
      ((first (seq (plus (set (space category))) (notAhead (set fun x => !space category x)))
          (x :: l)).or (first (set (space category)) (x :: l)))) = if space category x then
        some (if l.dropWhile (space category) = [] then [] else afterBlank category x l)
      else none := by
  rw [first_seq_possessive, hc.first_lineBreak, first_plus_cons, first_set_cons]
  by_cases hx : space category x = true
  · rw [first_notAhead_space hx, if_pos hx, if_pos hx, if_pos hx, bind_some, first_atEnd,
      afterBlank]
    split
    · rename_i hend
      rw [hend]
      rfl
    · cases lastShared (space category) isLineBreak (x :: l) with
      | some m => rfl
      | none =>
        cases hof : lastOf (space category) l with
        | some m => rfl
        | none => rw [lastOf_eq_none hof]; rfl
  · rw [first_notAhead_of_neg hx, if_neg hx, if_neg hx, if_neg hx, lastShared_cons_of_neg hx]
    rfl

theorem Consistent.first_blank_o200k :
    (first (seq (star (set (space category))) (plus (set isLineBreak))) (x :: l)).or
      ((first (seq (plus (set (space category))) (notAhead (set fun x => !space category x)))
          (x :: l)).or (first (plus (set (space category))) (x :: l)))
    = if space category x then some (afterBlank category x l) else none := by
  rw [hc.first_lineBreaks, first_plus_cons]
  by_cases hx : space category x = true
  · rw [first_notAhead_space hx, if_pos hx, if_pos hx, afterBlank]
    cases lastShared (space category) isLineBreak (x :: l) with
    | some m => rfl
    | none =>
      split
      · rfl
      · cases lastOf (space category) l <;> rfl
  · rw [first_notAhead_of_neg hx, if_neg hx, if_neg hx, lastShared_cons_of_neg hx]
    rfl

/-! ## The scanners and their patterns -/

theorem first_cl100k_cons : first (cl100k category) (x :: l) = (first contractions (x :: l)).or
      ((first (plus (set (letter category))) (if lead category x then l else x :: l)).or
      ((if number category x then some (dropUpTo (number category) 2 l) else none).or
      (((afterPunctuation category (x :: l)).map (List.dropWhile isLineBreak)).or
      (if space category x then
        some (if l.dropWhile (space category) = [] then [] else afterBlank category x l)
      else none)))) := by
  have hquote : first (seq (lit '\'') suffixes) (x :: l) = first contractions (x :: l) := by
    rw [first_contractions_cons, lit, first_seq_set_cons]
  have hword : first (seq (possessive (opt (set (lead category))))
        (possessive (plus (set (letter category))))) (x :: l)
      = first (plus (set (letter category))) (if lead category x then l else x :: l) := by
    rw [first_seq_possessive, first_opt, bind_some, first_possessive, first_set_cons]
    split <;> rfl
  have hpunctuation :
    first (seq (opt (lit ' ')) (seq (possessive (plus (set (punctuation category))))
        (possessive (star (set isLineBreak))))) (x :: l)
      = (afterPunctuation category (x :: l)).map (List.dropWhile isLineBreak) := by
    refine first_punctuation hc fun m => ?_
    rw [first_seq_of_total fun _ => first_possessive.trans first_star_set, first_possessive]
  simp only [cl100k, oneOf, chain, first_alt]
  rw [hquote, hword, first_possessive, first_upToThree_cons, hpunctuation, hc.first_blank_cl100k]

theorem first_o200k_cons : first (o200k category) (x :: l)
    = ((afterWord category x l).map fun m => (first contractions m).getD m).or
      ((if number category x then some (dropUpTo (number category) 2 l) else none).or
      (((afterPunctuation category (x :: l)).map
        (List.dropWhile fun x => isLineBreak x || x.rune == '/'.toNat)).or
      (if space category x then some (afterBlank category x l) else none))) := by
  have hpunctuation : first (seq (opt (lit ' ')) (seq (plus (set (punctuation category)))
        (star (set fun x => isLineBreak x || x.rune == '/'.toNat)))) (x :: l)
      = (afterPunctuation category (x :: l)).map
          (List.dropWhile fun x => isLineBreak x || x.rune == '/'.toNat) :=
    first_punctuation hc fun m => first_seq_of_total fun _ => first_star_set
  simp only [o200k, oneOf, chain, first_alt]
  rw [first_word, first_word, first_upToThree_cons, hpunctuation, hc.first_blank_o200k, afterWord]
  simp only [Option.map_or, Option.or_assoc]

theorem Consistent.space_of_none
    (hletter : letter category x = false) (hnumber : number category x = false)
    (hpunctuation : afterPunctuation category (x :: l) = none) : space category x = true := by
  by_cases hblank : x.rune = ' '.toNat
  · rw [space, hblank, decide_eq_true_iff]
    exact hc.blank
  · rw [afterPunctuation, if_neg hblank, first_plus_cons, punctuation, hletter, hnumber]
      at hpunctuation
    cases hx : space category x with
    | true => rfl
    | false =>
      rw [hx] at hpunctuation
      cases hpunctuation

/-- Digits, punctuation and whitespace, where no word starts. -/
theorem rest_spec (h : At s i (x :: l)) {w : Nat} {atEnd : Bool}
    {p : UInt8 → Bool} {q : Symbol → Bool} {blank : List Symbol}
    (hletter : letter category x = false)
    (hbytes : ∀ {i l}, At s i l → At s (bytesEnd s p i) (l.dropWhile q))
    (hblank : space category x = true → At s (whitespace (classes unicode) s i atEnd) blank) :
    ∃ rest,
      (if number category x then some (dropUpTo (number category) 2 l) else none).or
        (((afterPunctuation category (x :: l)).map (List.dropWhile q)).or
        (if space category x then some blank else none)) = some rest ∧
      At s (if (category x.rune).bits &&& cNumber ≠ 0 then digitsEnd (classes unicode) s 3 i
        else match punctuationEnd (classes unicode) s i with
          | some e => bytesEnd s p e
          | none => if (category x.rune).bits &&& cSpace ≠ 0 then
              whitespace (classes unicode) s i atEnd else i + w) rest := by
  have hdigits := digitsEnd_spec hc 3 h
  rw [dropUpTo] at hdigits
  simp only [ne_eq, number_mask, space_mask, Bool.not_eq_false]
  by_cases hnumber : number category x = true
  · rw [if_pos hnumber] at hdigits
    rw [if_pos hnumber, if_pos hnumber]
    exact ⟨_, rfl, hdigits⟩
  rw [if_neg hnumber, if_neg hnumber, none_or]
  have hpunctuation := punctuationEnd_spec hc h
  cases hafter : afterPunctuation category (x :: l) with
  | some m =>
    rw [hafter] at hpunctuation
    generalize punctuationEnd (classes unicode) s i = o at hpunctuation
    cases hpunctuation with
    | some hm => exact ⟨_, rfl, hbytes hm⟩
  | none =>
    rw [hafter] at hpunctuation
    generalize punctuationEnd (classes unicode) s i = o at hpunctuation
    cases hpunctuation with
    | none =>
      have hspace := hc.space_of_none hletter (by simpa using hnumber) hafter
      rw [if_pos hspace]
      refine ⟨blank, rfl, ?_⟩
      rw [if_pos hspace]
      exact hblank hspace

/-- The scanner of `cl100k_base` ends where the match of its pattern ends. -/
theorem scanCL100k_spec (h : At s i (x :: l)) :
    ∃ rest, first (cl100k category) (x :: l) = some rest ∧
      At s (scanCL100k (classes unicode) s i h.lt) rest := by
  rw [first_cl100k_cons hc, scanCL100k]
  simp only [ClassTable.look_eq hc h, leads_iff h]
  have hquote := contractionEnd_spec h
  generalize contractionEnd s i = a, first contractions (x :: l) = b at hquote
  cases hquote with
  | some hm => exact ⟨_, rfl, hm⟩
  | none =>
    have hj : At s (if lead category x then i + x.width else i)
        (if lead category x then l else x :: l) := by
      split
      · exact h.next
      · exact h
    -- a letter leads no word, so without a word here it is not a letter
    have hletter :
      first (plus (set (letter category))) (if lead category x then l else x :: l) = none →
        letter category x = false := by
      intro hnone
      by_contra hx
      have hlead : ¬ lead category x = true := by simp [lead, hx]
      rw [if_neg hlead, first_plus_cons, if_pos (by simpa using hx)] at hnone
      cases hnone
    have hword := carried_spec hc letter_mask hj
    generalize (if lead category x then i + x.width else i) = j,
      first (plus (set (letter category))) (if lead category x then l else x :: l) = o
      at hword hletter
    by_cases hcarries : carries (classes unicode) s cLetter j
    · rw [if_pos hcarries] at hword ⊢
      cases hword with
      | some hm => exact ⟨_, rfl, hm⟩
    · rw [if_neg hcarries] at hword ⊢
      cases hword with
      | none =>
        refine rest_spec hc h (hletter rfl) bytesEnd_lineBreak fun hx => ?_
        have hblank := whitespace_spec hc true h hx
        simpa using hblank

theorem scanO200k_spec (h : At s i (x :: l)) : ∃ rest, first (o200k category) (x :: l) = some rest ∧
      At s (scanO200k (classes unicode) s i h.lt) rest := by
  rw [first_o200k_cons hc, scanO200k]
  simp only [ClassTable.look_eq hc h, leads_iff h, Bool.decide_eq_true]
  have hword := word_spec hc h (decide ((category x.rune).bits &&& (cUpper ||| cLower) ≠ 0))
    fun hw => (word_mask x).1 (by simpa using hw)
  have hletter : afterWord category x l = none → letter category x = false := letter_of_afterWord
  generalize
    ((if lead category x then mixedCase (classes unicode) s (i + x.width) else none).or _) = a,
    afterWord category x l = b at hword hletter
  cases hword with
  | some hm => exact ⟨_, rfl, withContraction_spec hm⟩
  | none =>
    refine rest_spec hc h (hletter rfl) bytesEnd_slash fun hx => ?_
    have hblank := whitespace_spec hc false h hx
    simpa using hblank

/-- The hand-written scanner ends a piece where the pattern of cl100k does. -/
theorem scanCL100k_matchEnds (h : i < s.length) :
    MatchEnds (cl100k category) s i (scanCL100k (classes unicode) s i h) := by
  obtain ⟨x, l, hat⟩ := exists_at_cons h
  rw [MatchEnds, hat.eq]
  exact scanCL100k_spec hc hat

/-- The hand-written scanner ends a piece where the pattern of o200k does. -/
theorem scanO200k_matchEnds (h : i < s.length) :
    MatchEnds (o200k category) s i (scanO200k (classes unicode) s i h) := by
  obtain ⟨x, l, hat⟩ := exists_at_cons h
  rw [MatchEnds, hat.eq]
  exact scanO200k_spec hc hat

end

/-- The scanner of `cl100k_base`, with any consistent class table. -/
def cl100kScanner (hc : Consistent unicode category) : Scanner where
  scan := scanCL100k (classes unicode)
  lt := fun _ _ h => (scanCL100k_matchEnds hc h).lt rfl h.le
  le := fun _ _ h => (scanCL100k_matchEnds hc h).le

/-- The scanner of `o200k_base`, with any consistent class table. -/
def o200kScanner (hc : Consistent unicode category) : Scanner where
  scan := scanO200k (classes unicode)
  lt := fun _ _ h => (scanO200k_matchEnds hc h).lt rfl h.le
  le := fun _ _ h => (scanO200k_matchEnds hc h).le

/-- **The scanners implement their patterns**: from every byte of every text each ends where
the engine's match ends, and the pieces are not empty and tile the text. -/
theorem scanners_match_patterns (hc : Consistent unicode category) (s : Bytes) :
    (∀ i (h : i < s.length),
      MatchEnds (cl100k category) s i (scanCL100k (classes unicode) s i h) ∧
      MatchEnds (o200k category) s i (scanO200k (classes unicode) s i h)) ∧
    (((cl100kScanner hc).pieces s).flatten = s ∧ ∀ p ∈ (cl100kScanner hc).pieces s, p ≠ []) ∧
    (((o200kScanner hc).pieces s).flatten = s ∧ ∀ p ∈ (o200kScanner hc).pieces s, p ≠ []) := by
  refine ⟨fun i h => ⟨scanCL100k_matchEnds hc h, scanO200k_matchEnds hc h⟩,
    ⟨Scanner.flatten_pieces _ s, fun p hp => ?_⟩, ⟨Scanner.flatten_pieces _ s, fun p hp => ?_⟩⟩
  all_goals exact Scanner.ne_nil_of_mem_pieces _ hp

/-- Categories of a small alphabet: lower-case ASCII letters, digits and blanks. -/
def plainCategory (r : Nat) : Category :=
  if r = 0x0A ∨ r = 0x0D ∨ r = 0x20 then .space
  else if 0x30 ≤ r ∧ r ≤ 0x39 then .number
  else if 0x61 ≤ r ∧ r ≤ 0x7A then .ll
  else .other

def whole (lo hi : Nat) : Range := ⟨lo, hi, 1, Nat.one_pos⟩

theorem mem_runes_whole {lo hi r : Nat} : r ∈ (whole lo hi).runes ↔ lo ≤ r ∧ r ≤ hi := by
  rw [Range.runes, whole, mem_range'_1]
  dsimp only
  omega

/-- The range tables of the small alphabet. -/
def plainTables : Category → RangeTable
  | .space => ⟨[whole 0x0A 0x0A, whole 0x0D 0x0D, whole 0x20 0x20], []⟩
  | .number => ⟨[whole 0x30 0x39], []⟩
  | .ll => ⟨[whole 0x61 0x7A], []⟩
  | _ => ⟨[], []⟩

theorem consistent_plain : Consistent plainTables plainCategory where
  mem_runes := by
    intro c hc r
    unfold plainCategory
    cases c with
    | other => exact absurd rfl hc
    | _ =>
      simp only [plainTables, RangeTable.runes, mem_flatMap, append_nil, mem_cons,
        not_mem_nil, or_false, exists_eq_or_imp, exists_eq_left, mem_runes_whole, false_and,
        exists_false]
      split_ifs <;> simp <;> omega
  le_maxRune := by
    intro r hr
    unfold plainCategory at hr
    split_ifs at hr <;> grind
  lineFeed := rfl
  carriageReturn := rfl
  blank := rfl

theorem scanners_match_patterns_plain :
    MatchEnds (cl100k plainCategory) [0x61, 0x20, 0x20, 0xFF] 1
      (scanCL100k (classes plainTables) [0x61, 0x20, 0x20, 0xFF] 1 (by decide)) :=
  ((scanners_match_patterns consistent_plain [0x61, 0x20, 0x20, 0xFF]).1 1 (by decide)).1

end Olp.Estimate
