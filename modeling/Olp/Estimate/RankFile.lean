import Mathlib.Data.Nat.Digits.Defs
import Olp.Checked
import Olp.Utf8

/-!
# Rank files

A rank file holds the tokens of an encoding in rank order: a magic text, the number of
tokens and the length of each as varints, then the tokens back to back.  `RankFile` states
this format.  `readLengths` is the loop of `newVocab` that turns the lengths into offsets,
with the wrap-around of the source's 64-bit sum, and `readFile` everything `newVocab` does
before it fills its tables.

* `readFile_of_rankFile` reads the offsets of the tokens of a file;
* `rankFile_of_readFile` shows that a file whose offsets never step back is a rank file.
-/

namespace Olp.Estimate

open List

/-- Why `newVocab` refuses a file. -/
inductive Refusal where
  | /-- "not a rank file" -/ notRankFile
  | /-- "rank file has a bad token count" -/ badCount
  | /-- "rank file has a bad length for token %d" -/ badLength (token : Nat)
  | /-- "rank file is too large" -/ tooLarge
  | /-- "rank file holds %d token bytes, want %d" -/ wrongSize (held wanted : Nat)
  | /-- "rank file repeats token %q" -/ repeats (token : Bytes)
  | /-- "rank file has no token for byte %#x" -/ noToken (byte : UInt8)
  | /-- A slice of the blob out of range, which is a run-time panic. -/ outOfRange
  | /-- A search of the table that does not end. -/ diverges
deriving DecidableEq, Repr

/-! ## Varints -/

/-- The loop of `uvarint`, from byte `i` on. -/
def uvarintFrom (value i : Nat) : Bytes → Nat × Nat
  | [] => (0, 0)
  | b :: s =>
    if i < 10 then
      let value := value ||| ((b.toNat &&& 0x7f) <<< (7 * i)) % 2 ^ 64
      if b.toNat < 0x80 then (value, i + 1) else uvarintFrom value (i + 1) s
    else (0, 0)

/-- `uvarint`: the value at the start of a text and its width, which is `0` when the text
does not start with a complete varint. -/
def uvarint (s : Bytes) : Nat × Nat := uvarintFrom 0 0 s

/-- The number the low seven bits of some bytes spell, least significant first. -/
def sevens (code : Bytes) : Nat := Nat.ofDigits 128 (code.map fun b => b.toNat % 128)

/-- The top bit is set in all bytes but the last. -/
def Ends (code : Bytes) : Prop :=
  ∃ init last, code = init ++ [last] ∧ (∀ b ∈ init, 128 ≤ b.toNat) ∧ last.toNat < 128

/-- A varint of at most ten bytes, whose number is taken in 64 bits. -/
def Varint (code : Bytes) (value : Nat) : Prop :=
  Ends code ∧ code.length ≤ 10 ∧ value = sevens code % 2 ^ 64

variable {i : Nat} {value : Nat}

theorem or_shiftLeft_mod (x : Nat) (hv : value < 2 ^ (7 * i)) (hi : i < 10) :
    value ||| (x <<< (7 * i)) % 2 ^ 64 = (value + x * 2 ^ (7 * i)) % 2 ^ 64 := by
  obtain ⟨k, hk⟩ : ∃ k, 64 = 7 * i + k := ⟨64 - 7 * i, by omega⟩
  have hmod : (x <<< (7 * i)) % 2 ^ 64 = (x % 2 ^ k) <<< (7 * i) := by
    rw [Nat.shiftLeft_eq, Nat.shiftLeft_eq, hk, Nat.pow_add, Nat.mul_comm x, Nat.mul_mod_mul_left,
      Nat.mul_comm]
  rw [hmod, Nat.or_comm, ← Nat.shiftLeft_add_eq_or_of_lt hv, Nat.shiftLeft_eq]
  have hlt : x % 2 ^ k * 2 ^ (7 * i) + value < 2 ^ 64 := by
    have hx : x % 2 ^ k + 1 ≤ 2 ^ k := Nat.mod_lt _ (by positivity)
    calc x % 2 ^ k * 2 ^ (7 * i) + value < x % 2 ^ k * 2 ^ (7 * i) + 2 ^ (7 * i) := by omega
      _ = (x % 2 ^ k + 1) * 2 ^ (7 * i) := by ring
      _ ≤ 2 ^ k * 2 ^ (7 * i) := Nat.mul_le_mul_right _ hx
      _ = 2 ^ 64 := by rw [← Nat.pow_add, Nat.add_comm k, ← hk]
  have hsum : (value + x * 2 ^ (7 * i)) % 2 ^ 64 = (value + x % 2 ^ k * 2 ^ (7 * i)) % 2 ^ 64 := by
    have hmul : x * 2 ^ (7 * i) % 2 ^ 64 = x % 2 ^ k * 2 ^ (7 * i) := by
      rw [← Nat.shiftLeft_eq, ← Nat.shiftLeft_eq, hmod]
    rw [Nat.add_mod, hmul, Nat.mod_add_mod]
  rw [hsum, Nat.add_comm value, Nat.mod_eq_of_lt hlt]

theorem sevens_cons (b : UInt8) (code : Bytes) :
    sevens (b :: code) = b.toNat % 128 + 128 * sevens code := by
  simp [sevens, Nat.ofDigits_cons]

variable {code : Bytes}

theorem ends_cons {b : UInt8} :
    Ends (b :: code) ↔ if b.toNat < 128 then code = [] else Ends code := by
  constructor
  · rintro ⟨init, last, heq, hinit, hlast⟩
    cases init with
    | nil =>
      obtain ⟨rfl, rfl⟩ : b = last ∧ code = [] := by simpa using heq
      rw [if_pos hlast]
    | cons c init =>
      obtain ⟨rfl, rfl⟩ : b = c ∧ code = init ++ [last] := by simpa using heq
      obtain ⟨hb, hinit⟩ := forall_mem_cons.1 hinit
      rw [if_neg (Nat.not_lt.2 hb)]
      exact ⟨init, last, rfl, hinit, hlast⟩
  · split
    · rename_i hb
      rintro rfl
      exact ⟨[], b, rfl, fun _ h => absurd h not_mem_nil, hb⟩
    · rename_i hb
      rintro ⟨init, last, rfl, hinit, hlast⟩
      exact ⟨b :: init, last, rfl, forall_mem_cons.2 ⟨Nat.not_lt.1 hb, hinit⟩, hlast⟩

/-- What the loop of `uvarint` adds to the value it has. -/
theorem uvarintFrom_append (hends : Ends code) (rest : Bytes) (hv : value < 2 ^ (7 * i))
    (hlen : i + code.length ≤ 10) :
    uvarintFrom value i (code ++ rest)
      = ((value + 2 ^ (7 * i) * sevens code) % 2 ^ 64, i + code.length) := by
  induction code generalizing value i with
  | nil =>
    obtain ⟨init, last, heq, -⟩ := hends
    simp at heq
  | cons b code ih =>
    rw [length_cons] at hlen
    have hi : i < 10 := by omega
    have hlow : b.toNat &&& 0x7f = b.toNat % 128 := Nat.and_two_pow_sub_one_eq_mod b.toNat 7
    rw [ends_cons] at hends
    rw [cons_append, uvarintFrom, if_pos hi, hlow, or_shiftLeft_mod _ hv hi, sevens_cons]
    split at hends
    · rename_i hb
      subst hends
      rw [if_pos hb]
      simp only [sevens, map_nil, Nat.ofDigits_nil, Nat.mul_zero, Nat.add_zero, length_singleton]
      rw [Nat.mul_comm]
    · rename_i hb
      have hpow : 2 ^ (7 * (i + 1)) = 2 ^ (7 * i) * 128 := by
        rw [Nat.mul_succ, Nat.pow_add]
      have hv' : (value + b.toNat % 128 * 2 ^ (7 * i)) % 2 ^ 64 < 2 ^ (7 * (i + 1)) := by
        refine (Nat.mod_le _ _).trans_lt ?_
        have hx : b.toNat % 128 + 1 ≤ 128 := Nat.mod_lt _ (by decide)
        calc value + b.toNat % 128 * 2 ^ (7 * i)
            < (b.toNat % 128 + 1) * 2 ^ (7 * i) := by rw [Nat.add_mul]; omega
          _ ≤ 128 * 2 ^ (7 * i) := Nat.mul_le_mul_right _ hx
          _ = 2 ^ (7 * (i + 1)) := by rw [hpow, Nat.mul_comm]
      rw [if_neg hb, ih hends hv' (by omega), Nat.mod_add_mod, hpow, length_cons]
      exact Prod.ext (congrArg (· % 2 ^ 64) (by ring)) (by dsimp only; omega)

theorem ends_of_uvarintFrom {s : Bytes} {v w : Nat} (h : uvarintFrom value i s = (v, w))
    (hw : w ≠ 0) :
    ∃ code rest, s = code ++ rest ∧ Ends code ∧ i + code.length ≤ 10 ∧ w = i + code.length := by
  induction s generalizing value i with
  | nil =>
    rw [uvarintFrom] at h
    exact absurd (Prod.mk.inj h).2.symm hw
  | cons b s ih =>
    rw [uvarintFrom] at h
    split at h
    · rename_i hi
      split at h
      · rename_i hb
        refine ⟨[b], s, rfl, ends_cons.2 (by rw [if_pos hb]), hi, (Prod.mk.inj h).2.symm⟩
      · rename_i hb
        obtain ⟨code, rest, rfl, hends, hlen, rfl⟩ := ih h
        refine ⟨b :: code, rest, rfl, ends_cons.2 (by rwa [if_neg hb]), ?_, ?_⟩
        all_goals
          rw [length_cons]
          omega
    · exact absurd (Prod.mk.inj h).2.symm hw

theorem uvarint_append (h : Varint code value) (rest : Bytes) :
    uvarint (code ++ rest) = (value, code.length) := by
  obtain ⟨hends, hlen, rfl⟩ := h
  rw [uvarint, uvarintFrom_append hends rest (by simp) (by omega)]
  simp

theorem varint_of_uvarint {s : Bytes} {width : Nat} (h : uvarint s = (value, width))
    (hw : width ≠ 0) : ∃ code rest, s = code ++ rest ∧ Varint code value ∧ width = code.length := by
  obtain ⟨code, rest, rfl, hends, hlen, hwidth⟩ := ends_of_uvarintFrom h hw
  rw [Nat.zero_add] at hlen hwidth
  have hvar : Varint code (sevens code % 2 ^ 64) := ⟨hends, hlen, rfl⟩
  rw [uvarint_append hvar] at h
  exact ⟨code, rest, rfl, (Prod.mk.inj h).1 ▸ hvar, hwidth⟩

/-! ## Reading a file -/

/-- `rankMagic`. -/
def rankMagic : Bytes := "OLPRANK1".toList.map fun c => UInt8.ofNat c.toNat

/-- `rankBits`. -/
abbrev rankBits : Nat := 18

/-- `rankMask`. -/
abbrev rankMask : Nat := 1 <<< rankBits - 1

/-- What the loop over the token lengths has read: where each token ends, and what follows
the lengths. -/
def readLengths (i : Nat) : Nat → Bytes → Nat → Except Refusal (List Nat × Bytes)
  | 0, rest, _ => .ok ([], rest)
  | n + 1, rest, total =>
    let (length, width) := uvarint rest
    if width = 0 ∨ length = 0 then .error (.badLength i)
    else
      let total := (total + length) % 2 ^ 64
      if 2 ^ 32 - 1 < total then .error .tooLarge
      else do
        let (offsets, rest) ← readLengths (i + 1) n (rest.drop width) total
        return (total :: offsets, rest)

/-- The tokens of a file: `blob` holds them back to back, and token `r` starts at
`offsets[r]`. -/
structure Layout where
  blob : Bytes
  offsets : List Nat
deriving DecidableEq, Repr

/-- What `newVocab` does before it fills its tables. -/
def readFile (data : Bytes) : Except Refusal Layout := do
  require (rankMagic <+: data) .notRankFile
  let rest := data.drop rankMagic.length
  let (count, n) := uvarint rest
  require (¬ (n = 0 ∨ count = 0 ∨ rankMask ≤ count)) .badCount
  let (offsets, rest) ← readLengths 0 count (rest.drop n) 0
  require (rest.length = offsets.getLastD 0) (.wrongSize rest.length (offsets.getLastD 0))
  return ⟨rest, 0 :: offsets⟩

/-- A well-formed rank file with its tokens: fewer than `rankMask`, and at most as many
bytes as 32 bits count. -/
def RankFile (data : Bytes) (tokens : List Bytes) : Prop :=
  ∃ count lengths, data = rankMagic ++ (count ++ (lengths.flatten ++ tokens.flatten)) ∧
    Varint count tokens.length ∧ List.Forall₂ (fun l t => Varint l t.length) lengths tokens ∧
    0 < tokens.length ∧ tokens.length < rankMask ∧ tokens.flatten.length < 2 ^ 32

/-- Where tokens of some lengths end, the first starting at an offset. -/
def ends : Nat → List Nat → List Nat
  | _, [] => []
  | start, length :: lengths => (start + length) :: ends (start + length) lengths

@[simp] theorem length_ends (start : Nat) (lengths : List Nat) :
    (ends start lengths).length = lengths.length := by
  induction lengths generalizing start with
  | nil => rfl
  | cons length lengths ih => simp [ends, ih]

theorem getLastD_ends (start : Nat) (lengths : List Nat) :
    (ends start lengths).getLastD start = start + lengths.sum := by
  induction lengths generalizing start with
  | nil => simp [ends]
  | cons length lengths ih =>
    rw [ends, getLastD_cons, ih, sum_cons, Nat.add_assoc]

variable {tokens : List Bytes}

theorem readLengths_append {lengths : List Bytes}
    (hl : List.Forall₂ (fun l t => Varint l t.length) lengths tokens) (hne : ∀ t ∈ tokens, t ≠ [])
    (rest : Bytes) (i : Nat) {total : Nat} (hsum : total + tokens.flatten.length < 2 ^ 32) :
    readLengths i tokens.length (lengths.flatten ++ rest) total
      = .ok (ends total (tokens.map List.length), rest) := by
  induction hl generalizing i total with
  | nil => rfl
  | @cons l t lengths tokens hvar hl ih =>
    obtain ⟨ht, hne⟩ := forall_mem_cons.1 hne
    rw [flatten_cons, length_append] at hsum
    have hpos : ¬ (l.length = 0 ∨ t.length = 0) := by
      obtain ⟨⟨init, last, rfl, -⟩, -⟩ := hvar
      simpa using ht
    rw [flatten_cons, append_assoc, length_cons, readLengths, uvarint_append hvar]
    dsimp only
    rw [if_neg hpos, Nat.mod_eq_of_lt (by omega), if_neg (by omega), drop_left,
      ih hne (i + 1) (by omega)]
    rfl

theorem readLengths_empty {lengths : List Bytes}
    (hl : List.Forall₂ (fun l t => Varint l t.length) lengths tokens) (hempty : [] ∈ tokens)
    (rest : Bytes) (i total : Nat) :
    ∃ e, readLengths i tokens.length (lengths.flatten ++ rest) total = .error e := by
  induction hl generalizing i total with
  | nil => cases hempty
  | @cons l t lengths tokens hvar hl ih =>
    rw [flatten_cons, append_assoc, length_cons, readLengths, uvarint_append hvar]
    dsimp only
    split
    · exact ⟨_, rfl⟩
    · rename_i hpos
      split
      · exact ⟨_, rfl⟩
      · have hmem : [] ∈ tokens := by
          rcases mem_cons.1 hempty with rfl | hmem
          · simp at hpos
          · exact hmem
        obtain ⟨e, he⟩ := ih hmem (i + 1) ((total + t.length) % 2 ^ 64)
        rw [drop_left, he]
        exact ⟨e, rfl⟩

/-- Offsets that never step back are those of the lengths that were read: a sum that wraps
around would step back. -/
theorem lengths_of_readLengths {n : Nat} {rest rest' : Bytes} {total : Nat} {offsets : List Nat}
    (h : readLengths i n rest total = .ok (offsets, rest')) (htotal : total < 2 ^ 32)
    (hup : List.IsChain (· ≤ ·) (total :: offsets)) :
    ∃ codes lengths, rest = codes.flatten ++ rest' ∧
      List.Forall₂ (fun l length => Varint l length ∧ length ≠ 0) codes lengths ∧
      lengths.length = n ∧ offsets = ends total lengths ∧ total + lengths.sum < 2 ^ 32 := by
  induction n generalizing i rest total offsets with
  | zero =>
    obtain ⟨rfl, rfl⟩ : [] = offsets ∧ rest = rest' := by simpa [readLengths] using h
    exact ⟨[], [], rfl, .nil, rfl, rfl, htotal⟩
  | succ n ih =>
    rw [readLengths] at h
    cases hu : uvarint rest with
    | mk length width =>
      rw [hu] at h
      dsimp only at h
      split at h
      · cases h
      rename_i hpos
      obtain ⟨hwidth, hlength⟩ := not_or.1 hpos
      obtain ⟨code, tail, rfl, hvar, rfl⟩ := varint_of_uvarint hu hwidth
      split at h
      · cases h
      rename_i hsmall
      rw [drop_left, bind_eq_ok] at h
      obtain ⟨⟨offsets', rest''⟩, hread, h⟩ := h
      cases h
      obtain ⟨hstep, hup⟩ := isChain_cons_cons.1 hup
      have hlt : length < 2 ^ 64 := by
        rw [hvar.2.2]
        exact Nat.mod_lt _ (by positivity)
      -- a wrapped sum is below the total it was added to
      have hexact : (total + length) % 2 ^ 64 = total + length := by
        refine Nat.mod_eq_of_lt ?_
        omega
      rw [hexact] at hread hup hsmall ⊢
      obtain ⟨codes, lengths, rfl, hall, rfl, rfl, hsum⟩ := ih hread (by omega) hup
      refine ⟨code :: codes, length :: lengths, ?_, .cons ⟨hvar, hlength⟩ hall, rfl, rfl, ?_⟩
      · rw [flatten_cons, append_assoc]
      · rwa [sum_cons, ← Nat.add_assoc]

/-! ## Tokens -/

/-- `s[start:stop]`, which panics when it is out of range. -/
def slice (s : Bytes) (start stop : Nat) : Option Bytes :=
  if start ≤ stop ∧ stop ≤ s.length then some ((s.take stop).drop start) else none

/-- `token`: the bytes of a rank. -/
def Layout.token (l : Layout) (rank : Nat) : Option Bytes :=
  match l.offsets[rank]?, l.offsets[rank + 1]? with
  | some start, some stop => slice l.blob start stop
  | _, _ => none

theorem slice_append (pre t post : Bytes) :
    slice (pre ++ (t ++ post)) pre.length (pre.length + t.length) = some t := by
  rw [slice, if_pos (by simp), ← append_assoc, ← length_append, take_left, drop_left]

theorem token_ends (pre : Bytes) (tokens : List Bytes) (r : Nat) :
    Layout.token ⟨pre ++ tokens.flatten, pre.length :: ends pre.length (tokens.map List.length)⟩ r
      = tokens[r]? := by
  induction tokens generalizing pre r with
  | nil => simp [Layout.token, ends]
  | cons t tokens ih =>
    cases r with
    | zero => simp [Layout.token, ends, slice_append]
    | succ r =>
      have := ih (pre ++ t) r
      rw [length_append, append_assoc] at this
      rw [getElem?_cons_succ, ← this]
      simp [Layout.token, ends]

theorem exists_tokens {lengths : List Nat} {blob : Bytes} (h : blob.length = lengths.sum) :
    ∃ tokens : List Bytes, tokens.map List.length = lengths ∧ tokens.flatten = blob := by
  induction lengths generalizing blob with
  | nil => exact ⟨[], rfl, (length_eq_zero_iff.1 h).symm⟩
  | cons length lengths ih =>
    rw [sum_cons] at h
    have hrest : (blob.drop length).length = lengths.sum := by
      rw [length_drop]
      omega
    obtain ⟨tokens, rfl, hflat⟩ := ih hrest
    refine ⟨blob.take length :: tokens, ?_, ?_⟩
    · rw [map_cons, length_take_of_le (by omega)]
    · rw [flatten_cons, hflat, take_append_drop]

def Layout.of (tokens : List Bytes) : Layout :=
  ⟨tokens.flatten, 0 :: ends 0 (tokens.map List.length)⟩

@[simp] theorem Layout.token_of (tokens : List Bytes) (r : Nat) :
    (Layout.of tokens).token r = tokens[r]? := token_ends [] tokens r

theorem readFile_append {count : Bytes} {n : Nat} (hvar : Varint count n) (hpos : 0 < n)
    (hlt : n < rankMask) (rest : Bytes) :
    readFile (rankMagic ++ (count ++ rest)) = do
      let (offsets, rest) ← readLengths 0 n rest 0
      require (rest.length = offsets.getLastD 0) (.wrongSize rest.length (offsets.getLastD 0))
      return ⟨rest, 0 :: offsets⟩ := by
  have hwidth : count.length ≠ 0 := by
    obtain ⟨⟨init, last, rfl, -⟩, -⟩ := hvar
    simp
  have hcount : ¬ (count.length = 0 ∨ n = 0 ∨ rankMask ≤ n) := by omega
  rw [readFile, require, if_pos (prefix_append _ _), drop_left]
  dsimp only
  rw [uvarint_append hvar]
  dsimp only
  rw [require, if_pos hcount, drop_left]
  rfl

variable {data : Bytes}

theorem readFile_of_rankFile (h : RankFile data tokens) (hne : ∀ t ∈ tokens, t ≠ []) :
    readFile data = .ok (.of tokens) := by
  obtain ⟨count, lengths, rfl, hcount, hlengths, hpos, hlt, hsize⟩ := h
  have hlast : tokens.flatten.length = (ends 0 (tokens.map List.length)).getLastD 0 := by
    rw [getLastD_ends, length_flatten, Nat.zero_add]
  rw [readFile_append hcount hpos hlt, readLengths_append hlengths hne tokens.flatten 0 (by omega)]
  simp only [bind, Except.bind, require, if_pos hlast]
  rfl

theorem readFile_empty (h : RankFile data tokens) (hempty : [] ∈ tokens) :
    ∃ e, readFile data = .error e := by
  obtain ⟨count, lengths, rfl, hcount, hlengths, hpos, hlt, -⟩ := h
  obtain ⟨e, he⟩ := readLengths_empty hlengths hempty tokens.flatten 0 0
  rw [readFile_append hcount hpos hlt, he]
  exact ⟨e, rfl⟩

theorem isChain_of_token {l : Layout} (hin : ∀ r, r + 1 < l.offsets.length → (l.token r).isSome) :
    List.IsChain (· ≤ ·) l.offsets := by
  rw [isChain_iff_getElem]
  intro r hr
  have := hin r hr
  rw [Layout.token, getElem?_eq_getElem (by omega), getElem?_eq_getElem hr] at this
  dsimp only at this
  rw [slice] at this
  split at this
  · rename_i hcond
    exact hcond.1
  · cases this

theorem rankFile_of_readFile {l : Layout} (h : readFile data = .ok l)
    (hin : ∀ r, r + 1 < l.offsets.length → (l.token r).isSome) :
    ∃ tokens, RankFile data tokens ∧ (∀ t ∈ tokens, t ≠ []) ∧ l = .of tokens := by
  have hup := isChain_of_token hin
  rw [readFile] at h
  simp only [bind_eq_ok, require_eq_ok] at h
  obtain ⟨-, ⟨rest, rfl⟩, h⟩ := h
  rw [drop_left] at h
  cases hu : uvarint rest with
  | mk count width =>
    rw [hu] at h
    obtain ⟨-, hcount, ⟨offsets, blob⟩, hread, -, hsize, h⟩ := h
    cases h
    obtain ⟨hwidth, hcount⟩ := not_or.1 hcount
    obtain ⟨code, tail, rfl, hvar, rfl⟩ := varint_of_uvarint hu hwidth
    rw [drop_left] at hread
    obtain ⟨codes, lengths, rfl, hall, rfl, rfl, hsum⟩ :=
      lengths_of_readLengths hread (by decide) hup
    rw [getLastD_ends, Nat.zero_add] at hsize
    obtain ⟨tokens, rfl, rfl⟩ := exists_tokens hsize
    rw [length_map] at hvar hcount
    rw [Nat.zero_add, ← length_flatten] at hsum
    rw [List.forall₂_map_right_iff] at hall
    refine ⟨tokens, ⟨code, codes, rfl, hvar, hall.imp fun _ _ h => h.1, ?_, ?_, hsum⟩, ?_, rfl⟩
    · omega
    · omega
    · intro t ht
      obtain ⟨i, hi, rfl⟩ := getElem_of_mem ht
      have := (hall.get (by rw [hall.length_eq]; exact hi) hi).2
      simpa using this

end Olp.Estimate
