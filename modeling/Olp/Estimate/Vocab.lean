import Olp.Estimate.RankFile
import Olp.Probing

/-!
# Vocabularies

`vocab` maps the tokens of an encoding to their ranks.  A token of one byte or two is
looked up by its bytes, a longer one in an open addressing table whose entries pack a rank
and part of the token's hash.  Arrays of the source that are never read out of range are
functions here; the table has `mask + 1` slots.

The table is an instance of `Olp.Probing`: its keys are the tokens its entries name
(`Vocab.keys`), and the tag of an entry only spares comparisons (`Packed`).  `Loaded` is what
the tables hold after some tokens were added, `Loaded.add` the step from one token to the
next, and `newVocab_exact` the result for every file.
-/

namespace Olp.Estimate

open List Option Function

/-- `tagBits`. -/
abbrev tagBits : Nat := 32 - rankBits

/-- `noRank`: no token. -/
abbrev noRank : Nat := 2 ^ 32 - 1

/-! ## Hashing -/

/-- `bits.Mul64`, its halves folded by exclusive or. -/
def mulFold (x y : UInt64) : UInt64 := UInt64.ofNat (x.toNat * y.toNat / 2 ^ 64) ^^^ (x * y)

/-- Byte `i` of a text as a word. -/
def wordAt (s : Bytes) (i : Nat) : UInt64 := (s.getD i 0).toUInt64

/-- `load32`. -/
def load32 (s : Bytes) (i : Nat) : UInt64 :=
  wordAt s i ||| wordAt s (i + 1) <<< 8 ||| wordAt s (i + 2) <<< 16 ||| wordAt s (i + 3) <<< 24

/-- `load64`. -/
def load64 (s : Bytes) (i : Nat) : UInt64 := load32 s i ||| load32 s (i + 4) <<< 32

/-- `hashMul1`. -/
def hashMul1 : UInt64 := 0xa0761d6478bd642f

/-- `hashMul2`. -/
def hashMul2 : UInt64 := 0xe7037ed1a0b428db

/-- The loop of `hashToken` over blocks of 16 bytes: what is left of the text, and the hash
so far. -/
def hashBlocks (s : Bytes) (h : UInt64) : Bytes × UInt64 :=
  if _long : 16 < s.length then
    hashBlocks (s.drop 16) (mulFold (load64 s 0 ^^^ hashMul1) (load64 s 8 ^^^ h))
  else (s, h)
termination_by s.length
decreasing_by
  rw [List.length_drop]
  omega

/-- `hashToken`. -/
def hashToken (s : Bytes) : UInt64 :=
  let (s, h) := hashBlocks s (UInt64.ofNat s.length)
  let (a, b) : UInt64 × UInt64 :=
    if 8 ≤ s.length then (load64 s 0, load64 s (s.length - 8))
    else if 4 ≤ s.length then (load32 s 0, load32 s (s.length - 4))
    else if 0 < s.length then
      (wordAt s 0 <<< 16 ||| wordAt s (s.length >>> 1) <<< 8 ||| wordAt s (s.length - 1), 0)
    else (0, 0)
  mulFold (a ^^^ hashMul2) (b ^^^ h ^^^ hashMul1)

/-- The tag of a token, from other bits of its hash than its slot. -/
def tagOf (token : Bytes) : Nat := (hashToken token >>> 40).toNat % 2 ^ 32 &&& (1 <<< tagBits - 1)

/-! ## The tables -/

/-- `vocab`. -/
structure Vocab where
  layout : Layout
  /-- rank and hash tag of the tokens of three bytes or more, zero in an empty slot -/
  table : Nat → Nat
  mask : Nat
  longest : Nat
  /-- rank of each single byte -/
  bytes : UInt8 → Nat
  /-- rank of each pair of bytes and one more, zero for a pair that is no token -/
  pairs : UInt8 → UInt8 → Nat

namespace Vocab

/-- `hash`: the slot a search starts at and the tag. -/
def hash (v : Vocab) (token : Bytes) : Nat × Nat :=
  ((hashToken token).toNat % 2 ^ 32 &&& v.mask, tagOf token)

/-- An entry is that of a token: `e>>rankBits == tag && v.token(e&rankMask-1) == token`. -/
def names (v : Vocab) (e tag : Nat) (token : Bytes) : Prop :=
  e >>> rankBits = tag ∧ v.layout.token ((e &&& rankMask) - 1) = some token

instance (v : Vocab) (e tag : Nat) (token : Bytes) : Decidable (v.names e tag token) :=
  inferInstanceAs (Decidable (_ ∧ _))

/-- The loop of `insert`: the empty slot it ends at, or none for a token the table holds.
Nothing when the steps run out first. -/
def insertFrom (v : Vocab) (token : Bytes) (tag : Nat) : Nat → Nat → Option (Option Nat)
  | 0, _ => none
  | steps + 1, slot =>
    if v.table slot ≠ 0 then
      if v.names (v.table slot) tag token then some none
      else v.insertFrom token tag steps ((slot + 1) &&& v.mask)
    else some (some slot)

/-- `insert`: none when the table already holds the token. -/
def insert (v : Vocab) (token : Bytes) (rank : Nat) : Option (Option Vocab) :=
  let (slot, tag) := v.hash token
  (v.insertFrom token tag (v.mask + 1) slot).map fun found => found.map fun slot =>
    { v with table := update v.table slot (tag <<< rankBits ||| (rank + 1)) }

/-- The loop of `rank`.  Nothing when the steps run out first. -/
def rankFrom (v : Vocab) (token : Bytes) (tag : Nat) : Nat → Nat → Option Nat
  | 0, _ => none
  | steps + 1, slot =>
    let e := v.table slot
    if e = 0 then some noRank
    else if v.names e tag token then some ((e &&& rankMask) - 1)
    else v.rankFrom token tag steps ((slot + 1) &&& v.mask)

/-- `rank`: the rank of a token, or `noRank`.  Nothing if the search did not end within as
many steps as the table has slots. -/
def rank (v : Vocab) (token : Bytes) : Option Nat :=
  match token with
  | [] => some noRank
  | [b] => some (v.bytes b)
  | [a, b] => some (if v.pairs a b ≠ 0 then v.pairs a b - 1 else noRank)
  | token =>
    if v.longest < token.length then some noRank
    else
      let (slot, tag) := v.hash token
      v.rankFrom token tag (v.mask + 1) slot

/-- The turn of `newVocab`'s loop for a rank. -/
def add (v : Vocab) (r : Nat) : Except Refusal Vocab :=
  match v.layout.token r with
  | none => .error .outOfRange
  | some token =>
    let v := { v with longest := max v.longest token.length }
    match token with
    | [b] =>
      if v.bytes b ≠ noRank then .error (.repeats token)
      else .ok { v with bytes := update v.bytes b r }
    | [a, b] =>
      if v.pairs a b ≠ 0 then .error (.repeats token)
      else .ok { v with pairs := update v.pairs a (update (v.pairs a) b (r + 1)) }
    | token =>
      match v.insert token r with
      | none => .error .diverges
      | some none => .error (.repeats token)
      | some (some v) => .ok v

end Vocab

/-- The loop that doubles the size of the table until it is large enough. -/
def grow : Nat → Nat → Nat → Nat
  | 0, size, _ => size
  | steps + 1, size, need => if size < need then grow steps (size <<< 1) need else size

def allBytes : List UInt8 := (List.range 256).map UInt8.ofNat

/-- The tables before any token is added. -/
def Vocab.blank (layout : Layout) : Vocab :=
  let count := layout.offsets.length - 1
  let size := grow (count * 5 / 2) (1 <<< 8) (count * 5 / 2)
  { layout, table := fun _ => 0, mask := size - 1, longest := 0, bytes := fun _ => noRank,
    pairs := fun _ _ => 0 }

/-- `newVocab`. -/
def newVocab (data : Bytes) : Except Refusal Vocab := do
  let layout ← readFile data
  let v ← (List.range (layout.offsets.length - 1)).foldlM Vocab.add (.blank layout)
  match allBytes.find? fun b => v.bytes b = noRank with
  | some b => .error (.noToken b)
  | none => .ok v

/-! ## Entries -/

def pack (token : Bytes) (rank : Nat) : Nat := tagOf token <<< rankBits ||| (rank + 1)

section

variable {token : Bytes} {rank : Nat} (h : rank + 1 < 2 ^ rankBits)

include h

theorem pack_eq : pack token rank = tagOf token * 2 ^ rankBits + (rank + 1) := by
  rw [pack, ← Nat.shiftLeft_add_eq_or_of_lt h, Nat.shiftLeft_eq]

theorem pack_ne_zero : pack token rank ≠ 0 := by
  rw [pack_eq h]
  omega

theorem pack_shiftRight : pack token rank >>> rankBits = tagOf token := by
  rw [pack_eq h, Nat.shiftRight_eq_div_pow, Nat.mul_comm, Nat.mul_add_div (by positivity),
    Nat.div_eq_of_lt h, Nat.add_zero]

theorem pack_and : (pack token rank &&& rankMask) - 1 = rank := by
  have hmask : rankMask = 2 ^ rankBits - 1 := rfl
  rw [pack_eq h, hmask, Nat.and_two_pow_sub_one_eq_mod, Nat.mul_comm, Nat.mul_add_mod,
    Nat.mod_eq_of_lt h, Nat.add_sub_cancel]

end

/-- The token the entry of a slot names. -/
def Vocab.keys (v : Vocab) (slot : Nat) : Option Bytes :=
  if v.table slot = 0 then none else v.layout.token ((v.table slot &&& rankMask) - 1)

def Vocab.home (v : Vocab) (token : Bytes) : Nat := (v.hash token).1

/-- The table has a power of two of slots, and each entry is that of a token. -/
structure Packed (v : Vocab) : Prop where
  slots : ∃ k, v.mask = 2 ^ k - 1
  packed : ∀ slot, v.table slot ≠ 0 → ∃ token rank, rank + 1 < 2 ^ rankBits ∧
    v.layout.token rank = some token ∧ v.table slot = pack token rank

namespace Packed

variable {v : Vocab} (h : Packed v)

include h

theorem and_mask (n : Nat) : n &&& v.mask = n % (v.mask + 1) := by
  obtain ⟨k, hk⟩ := h.slots
  have hpos : 0 < 2 ^ k := by positivity
  rw [hk, Nat.and_two_pow_sub_one_eq_mod, Nat.sub_add_cancel hpos]

variable {slot : Nat} (token : Bytes) (steps : Nat)

theorem home_lt : v.home token < v.mask + 1 := by
  rw [Vocab.home, Vocab.hash, h.and_mask]
  exact Nat.mod_lt _ (Nat.succ_pos _)

theorem exists_key (hslot : v.table slot ≠ 0) :
    ∃ token rank, rank + 1 < 2 ^ rankBits ∧ v.table slot = pack token rank ∧
      v.keys slot = some token ∧ v.layout.token rank = some token := by
  obtain ⟨token, rank, hrank, htoken, hentry⟩ := h.packed slot hslot
  refine ⟨token, rank, hrank, hentry, ?_, htoken⟩
  rw [Vocab.keys, if_neg hslot, hentry, pack_and hrank, htoken]

theorem keys_eq_none : v.keys slot = none ↔ v.table slot = 0 := by
  refine ⟨fun hkeys => ?_, fun hzero => by rw [Vocab.keys, if_pos hzero]⟩
  by_contra hslot
  obtain ⟨token, -, -, -, hkey, -⟩ := h.exists_key hslot
  rw [hkeys] at hkey
  cases hkey

theorem names_iff (hslot : v.table slot ≠ 0) (token : Bytes) :
    v.names (v.table slot) (tagOf token) token ↔ v.keys slot = some token := by
  obtain ⟨held, rank, hrank, hentry, hkey, htoken⟩ := h.exists_key hslot
  rw [Vocab.names, hentry, pack_shiftRight hrank, pack_and hrank, htoken, hkey]
  refine ⟨fun hnames => hnames.2, ?_⟩
  rintro hsame
  cases hsame
  exact ⟨rfl, rfl⟩

theorem probe_succ (slot : Nat) :
    Probing.probe (v.mask + 1) v.keys token (steps + 1) slot
      = if v.table slot = 0 ∨ v.names (v.table slot) (tagOf token) token then some slot
        else Probing.probe (v.mask + 1) v.keys token steps ((slot + 1) &&& v.mask) := by
  rw [Probing.probe, h.and_mask]
  by_cases hslot : v.table slot = 0
  · rw [h.keys_eq_none.2 hslot, if_pos (.inl hslot)]
  · obtain ⟨held, -, -, -, hkey, -⟩ := h.exists_key hslot
    simp only [h.names_iff hslot, hslot, false_or, hkey, some.injEq]

theorem insertFrom_eq (slot : Nat) :
    v.insertFrom token (tagOf token) steps slot
      = (Probing.probe (v.mask + 1) v.keys token steps slot).map
          fun stop => if v.keys stop = none then some stop else none := by
  induction steps generalizing slot with
  | zero => rfl
  | succ steps ih =>
    rw [Vocab.insertFrom, h.probe_succ, ih]
    by_cases hslot : v.table slot = 0 <;>
      by_cases hnames : v.names (v.table slot) (tagOf token) token <;>
      simp [hslot, hnames, h.keys_eq_none]

theorem rankFrom_eq (slot : Nat) : v.rankFrom token (tagOf token) steps slot
      = (Probing.probe (v.mask + 1) v.keys token steps slot).map
          fun stop => if v.table stop = 0 then noRank else (v.table stop &&& rankMask) - 1 := by
  induction steps generalizing slot with
  | zero => rfl
  | succ steps ih =>
    rw [Vocab.rankFrom, h.probe_succ, ih]
    by_cases hslot : v.table slot = 0 <;>
      by_cases hnames : v.names (v.table slot) (tagOf token) token <;> simp [hslot, hnames]

end Packed

/-! ## What the tables hold -/

def rankIn (tokens : List Bytes) (token : Bytes) : Nat := (tokens.idxOf? token).getD noRank

theorem rankIn_eq (tokens : List Bytes) (token : Bytes) :
    rankIn tokens token = if token ∈ tokens then tokens.idxOf token else noRank := by
  by_cases hmem : token ∈ tokens
  · obtain ⟨i, hi⟩ := ne_none_iff_exists'.1 (idxOf?_eq_none_iff.not.2 (not_not.2 hmem))
    rw [if_pos hmem, rankIn, idxOf_eq_getD_idxOf?, hi]
    rfl
  · rw [if_neg hmem, rankIn, idxOf?_eq_none_iff.2 hmem]
    rfl

section

variable {done : List Bytes} {t x : Bytes}

theorem idxOf_concat_self (ht : t ∉ done) : (done ++ [t]).idxOf t = done.length := by
  rw [idxOf_append_of_notMem ht, idxOf_cons_self, Nat.add_zero]

theorem indexed_concat {α : Type} (f : Nat → α) (none : α) (ht : t ∉ done) :
    (if x ∈ done ++ [t] then f ((done ++ [t]).idxOf x) else none)
      = if x = t then f done.length else if x ∈ done then f (done.idxOf x) else none := by
  by_cases hx : x = t
  · rw [if_pos hx, hx, if_pos (by simp), idxOf_concat_self ht]
  · rw [if_neg hx]
    by_cases hmem : x ∈ done
    · rw [if_pos hmem, if_pos (mem_append_left _ hmem), idxOf_append_of_mem hmem]
    · rw [if_neg hmem, if_neg (by simp [hmem, hx])]

theorem rankIn_concat (ht : t ∉ done) :
    rankIn (done ++ [t]) x = if x = t then done.length else rankIn done x := by
  rw [rankIn_eq, rankIn_eq]
  exact indexed_concat id noRank ht

end

/-- The table holds the tokens of three bytes or more of a list, each with its index. -/
structure TableLoaded (done : List Bytes) (v : Vocab) : Prop where
  entries : ∀ slot, v.table slot ≠ 0 → slot < v.mask + 1 ∧
    ∃ t ∈ done, 3 ≤ t.length ∧ v.table slot = pack t (done.idxOf t)
  held : ∀ t ∈ done, 3 ≤ t.length → ∃ slot < v.mask + 1, v.table slot = pack t (done.idxOf t)
  sound : Probing.Sound (v.mask + 1) v.home v.keys

/-- The tables after the first tokens of a file were added. -/
structure Loaded (all done : List Bytes) (v : Vocab) : Prop where
  layout : v.layout = .of all
  initial : done <+: all
  few : all.length < rankMask
  slots : ∃ k, v.mask = 2 ^ k - 1
  room : all.length < v.mask + 1
  longest : ∀ t ∈ done, t.length ≤ v.longest
  bytes : ∀ b, v.bytes b = rankIn done [b]
  pairs : ∀ a b, v.pairs a b = if [a, b] ∈ done then done.idxOf [a, b] + 1 else 0
  table : TableLoaded done v

variable {v : Vocab} {tokens : List Bytes}

theorem TableLoaded.concat {done : List Bytes} (h : TableLoaded done v) {t : Bytes}
    (hshort : t.length < 3) : TableLoaded (done ++ [t]) v := by
  refine ⟨?_, ?_, h.sound⟩
  · intro slot hslot
    obtain ⟨hlt, x, hx, hlong, hentry⟩ := h.entries slot hslot
    refine ⟨hlt, x, mem_append_left _ hx, hlong, ?_⟩
    rw [idxOf_append_of_mem hx, hentry]
  · intro x hx hlong
    rcases mem_append.1 hx with hx | hx
    · rw [idxOf_append_of_mem hx]
      exact h.held x hx hlong
    · rw [mem_singleton.1 hx] at hlong
      omega

namespace Loaded

variable {all done : List Bytes} {t : Bytes}

section

variable (h : Loaded all done v)

include h

theorem idxOf_lt (ht : t ∈ done) : done.idxOf t + 1 < 2 ^ rankBits := by
  have h₁ := idxOf_lt_length_of_mem ht
  have h₂ := h.initial.length_le
  have h₃ := h.few
  have h₄ : rankMask = 2 ^ rankBits - 1 := rfl
  omega

theorem token_idxOf (ht : t ∈ done) : v.layout.token (done.idxOf t) = some t := by
  obtain ⟨rest, rfl⟩ := h.initial
  have hlt := idxOf_lt_length_of_mem ht
  rw [h.layout, Layout.token_of, getElem?_append_left hlt, getElem?_eq_getElem hlt, getElem_idxOf]

theorem packed : Packed v := by
  refine ⟨h.slots, ?_⟩
  intro slot hslot
  obtain ⟨-, t, ht, -, hentry⟩ := h.table.entries slot hslot
  exact ⟨t, done.idxOf t, h.idxOf_lt ht, h.token_idxOf ht, hentry⟩

theorem keys_eq_some {slot : Nat} :
    v.keys slot = some t → slot < v.mask + 1 ∧ t ∈ done ∧ 3 ≤ t.length ∧
      v.table slot = pack t (done.idxOf t) := by
  intro hkey
  have hslot : v.table slot ≠ 0 := by
    intro hzero
    rw [h.packed.keys_eq_none.2 hzero] at hkey
    cases hkey
  obtain ⟨hlt, x, hx, hlong, hentry⟩ := h.table.entries slot hslot
  rw [Vocab.keys, if_neg hslot, hentry, pack_and (h.idxOf_lt hx), h.token_idxOf hx] at hkey
  cases hkey
  exact ⟨hlt, hx, hlong, hentry⟩

theorem exists_key (ht : t ∈ done) (hlong : 3 ≤ t.length) :
    ∃ slot < v.mask + 1, v.keys slot = some t := by
  obtain ⟨slot, hlt, hentry⟩ := h.table.held t ht hlong
  refine ⟨slot, hlt, ?_⟩
  have hne : pack t (done.idxOf t) ≠ 0 := pack_ne_zero (h.idxOf_lt ht)
  rw [Vocab.keys, if_neg (hentry ▸ hne), hentry, pack_and (h.idxOf_lt ht), h.token_idxOf ht]

theorem exists_stop (t : Bytes) :
    ∃ stop, Probing.probe (v.mask + 1) v.keys t (v.mask + 1) (v.home t) = some stop := by
  have hlen : done.length < v.mask + 1 := lt_of_le_of_lt h.initial.length_le h.room
  obtain ⟨e, he, hempty⟩ := h.table.sound.exists_empty hlen
    fun slot _ key hkey => (h.keys_eq_some hkey).2.1
  exact isSome_iff_exists.1 (Probing.probe_isSome (h.packed.home_lt t) he hempty)

/-- Where a search for a long token ends: at its entry if it was added, at an empty slot if
not. -/
theorem stop_cases (hlong : 3 ≤ t.length) {stop : Nat}
    (hstop : Probing.probe (v.mask + 1) v.keys t (v.mask + 1) (v.home t) = some stop) :
    (t ∈ done ∧ v.keys stop = some t) ∨ (t ∉ done ∧ v.keys stop = none) := by
  have hhome := h.packed.home_lt t
  have hiff := h.table.sound.probe_some_iff hhome hstop
  by_cases ht : t ∈ done
  · exact .inl ⟨ht, hiff.2 (h.exists_key ht hlong)⟩
  · refine .inr ⟨ht, (Probing.probe_spec hhome hstop).1.resolve_right ?_⟩
    intro hkey
    exact ht (h.keys_eq_some hkey).2.1

/-- The table finds the rank of a token that was added, and no other. -/
theorem rank_eq (hne : ∀ t ∈ done, t ≠ []) (t : Bytes) : v.rank t = some (rankIn done t) := by
  unfold Vocab.rank
  split
  · rw [rankIn_eq, if_neg fun hmem => hne [] hmem rfl]
  · rw [h.bytes]
  · rw [h.pairs, rankIn_eq]
    split_ifs <;> simp_all
  · rename_i token h₀ h₁ h₂
    have hlong : 3 ≤ t.length := by
      rcases t with _ | ⟨a, _ | ⟨b, _ | ⟨c, t⟩⟩⟩
      · exact absurd rfl h₀
      · exact absurd rfl (h₁ a)
      · exact absurd rfl (h₂ a b)
      · simp
    split
    · rename_i hover
      rw [rankIn_eq, if_neg fun hmem => absurd (h.longest t hmem) (by omega)]
    · obtain ⟨stop, hstop⟩ := h.exists_stop t
      have hfrom := h.packed.rankFrom_eq t (v.mask + 1) (v.home t)
      rw [hstop, map_some] at hfrom
      refine hfrom.trans (congrArg some ?_)
      rcases h.stop_cases hlong hstop with ⟨hmem, hkey⟩ | ⟨hmem, hkey⟩
      · obtain ⟨-, -, -, hentry⟩ := h.keys_eq_some hkey
        have hpos : pack t (done.idxOf t) ≠ 0 := pack_ne_zero (h.idxOf_lt hmem)
        rw [hentry, if_neg hpos, pack_and (h.idxOf_lt hmem), rankIn_eq, if_pos hmem]
      · rw [if_pos (h.packed.keys_eq_none.1 hkey), rankIn_eq, if_neg hmem]

end

/-! ## Adding a token -/

variable {rest : List Bytes}

theorem token_length (h : Loaded (done ++ t :: rest) done v) :
    v.layout.token done.length = some t := by
  rw [h.layout, Layout.token_of, getElem?_append_right (Nat.le_refl _), Nat.sub_self]
  rfl

theorem length_lt (h : Loaded (done ++ t :: rest) done v) : done.length + 1 < 2 ^ rankBits := by
  have h₁ := h.few
  have h₂ : rankMask = 2 ^ rankBits - 1 := rfl
  rw [length_append, length_cons] at h₁
  omega

theorem insert_of_mem (h : Loaded all done v) (hlong : 3 ≤ t.length) (ht : t ∈ done) (r : Nat) :
    v.insert t r = some none := by
  obtain ⟨stop, hstop⟩ := h.exists_stop t
  have hfrom := h.packed.insertFrom_eq t (v.mask + 1) (v.home t)
  have hkey := (h.stop_cases hlong hstop).resolve_right fun hno => hno.1 ht
  rw [hstop, map_some, hkey.2, if_neg (by simp)] at hfrom
  exact congrArg (Option.map _) hfrom

/-- `insert` adds a new long token. -/
theorem insert_of_notMem (h : Loaded (done ++ t :: rest) done v) (hlong : 3 ≤ t.length)
    (ht : t ∉ done) :
    ∃ stop, v.insert t done.length
        = some (some { v with table := update v.table stop (pack t done.length) }) ∧
      TableLoaded (done ++ [t]) { v with table := update v.table stop (pack t done.length) } := by
  obtain ⟨stop, hstop⟩ := h.exists_stop t
  have hfrom := h.packed.insertFrom_eq t (v.mask + 1) (v.home t)
  have hkey := ((h.stop_cases hlong hstop).resolve_left fun hno => ht hno.1).2
  rw [hstop, map_some, if_pos hkey] at hfrom
  refine ⟨stop, congrArg (Option.map _) hfrom, ?_⟩
  have hhome := h.packed.home_lt t
  have hlt := (Probing.probe_spec hhome hstop).2.1
  have hpos : pack t done.length ≠ 0 := pack_ne_zero h.length_lt
  have hempty : v.table stop = 0 := h.packed.keys_eq_none.1 hkey
  have hkeys : Vocab.keys { v with table := update v.table stop (pack t done.length) }
      = update v.keys stop (some t) := by
    funext slot
    by_cases hslot : slot = stop
    · subst hslot
      simp only [Vocab.keys, update_self, hpos, if_false, pack_and h.length_lt, h.token_length]
    · simp only [Vocab.keys, update_of_ne hslot]
  refine ⟨?_, ?_, ?_⟩
  · intro slot
    dsimp only
    by_cases hslot : slot = stop
    · subst hslot
      rw [update_self]
      intro _
      exact ⟨hlt, t, by simp, hlong, by rw [idxOf_concat_self ht]⟩
    · rw [update_of_ne hslot]
      intro hocc
      obtain ⟨hlt, x, hx, hxl, hentry⟩ := h.table.entries slot hocc
      exact ⟨hlt, x, mem_append_left _ hx, hxl, by rw [idxOf_append_of_mem hx, hentry]⟩
  · intro x hx hxl
    dsimp only
    rcases mem_append.1 hx with hx | hx
    · obtain ⟨slot, hslot, hentry⟩ := h.table.held x hx hxl
      have hne : slot ≠ stop := by
        rintro rfl
        rw [hempty] at hentry
        exact pack_ne_zero (h.idxOf_lt hx) hentry.symm
      exact ⟨slot, hslot, by rw [update_of_ne hne, idxOf_append_of_mem hx, hentry]⟩
    · obtain rfl := mem_singleton.1 hx
      exact ⟨stop, hlt, by rw [update_self, idxOf_concat_self ht]⟩
  · rw [hkeys]
    exact h.table.sound.update hhome hstop hkey

theorem longest_concat (h : Loaded all done v) (t : Bytes) :
    ∀ x ∈ done ++ [t], x.length ≤ max v.longest t.length := by
  intro x hx
  rcases mem_append.1 hx with hx | hx
  · exact (h.longest x hx).trans (le_max_left _ _)
  · rw [mem_singleton.1 hx]
    exact le_max_right _ _

theorem bytes_concat (h : Loaded all done v) (ht : t ∉ done) (hlen : t.length ≠ 1) (b : UInt8) :
    v.bytes b = rankIn (done ++ [t]) [b] := by
  rw [rankIn_concat ht, if_neg (by rintro rfl; exact hlen rfl), h.bytes]

theorem pairs_concat (h : Loaded all done v) (ht : t ∉ done) (hlen : t.length ≠ 2) (a b : UInt8) :
    v.pairs a b = if [a, b] ∈ done ++ [t] then (done ++ [t]).idxOf [a, b] + 1 else 0 := by
  rw [indexed_concat (· + 1) 0 ht, if_neg (by rintro rfl; exact hlen rfl), h.pairs]

theorem add_byte {b : UInt8} (h : Loaded (done ++ [b] :: rest) done v) :
    ([b] ∈ done → v.add done.length = .error (.repeats [b])) ∧
    ([b] ∉ done → ∃ v', v.add done.length = .ok v' ∧
      Loaded (done ++ [b] :: rest) (done ++ [[b]]) v') := by
  rw [Vocab.add, h.token_length]
  dsimp only
  constructor
  · intro ht
    have hlt := h.idxOf_lt ht
    have hnone : 2 ^ rankBits < noRank := by decide
    rw [if_pos]
    rw [h.bytes, rankIn_eq, if_pos ht]
    omega
  · intro ht
    rw [if_neg (by rw [h.bytes, rankIn_eq, if_neg ht]; simp)]
    refine ⟨_, rfl, h.layout, ⟨rest, by simp⟩, h.few, h.slots, h.room, h.longest_concat [b], ?_,
      h.pairs_concat ht (by simp), ?_⟩
    · intro x
      dsimp only
      rw [rankIn_concat ht]
      by_cases hx : x = b
      · rw [hx, update_self, if_pos rfl]
      · rw [update_of_ne hx, if_neg (by simpa using hx), h.bytes]
    · obtain ⟨entries, held, sound⟩ := h.table.concat (t := [b]) (by simp)
      exact ⟨entries, held, sound⟩

theorem add_pair {a b : UInt8} (h : Loaded (done ++ [a, b] :: rest) done v) :
    ([a, b] ∈ done → v.add done.length = .error (.repeats [a, b])) ∧
    ([a, b] ∉ done → ∃ v', v.add done.length = .ok v' ∧
      Loaded (done ++ [a, b] :: rest) (done ++ [[a, b]]) v') := by
  rw [Vocab.add, h.token_length]
  dsimp only
  constructor
  · intro ht
    rw [if_pos]
    rw [h.pairs, if_pos ht]
    omega
  · intro ht
    rw [if_neg (by rw [h.pairs, if_neg ht]; simp)]
    refine ⟨_, rfl, h.layout, ⟨rest, by simp⟩, h.few, h.slots, h.room, h.longest_concat [a, b],
      h.bytes_concat ht (by simp), ?_, ?_⟩
    · intro x y
      dsimp only
      rw [indexed_concat (· + 1) 0 ht]
      by_cases hx : x = a
      · subst hx
        rw [update_self]
        by_cases hy : y = b
        · rw [hy, update_self, if_pos rfl]
        · rw [update_of_ne hy, if_neg (by simpa using hy), h.pairs]
      · rw [update_of_ne hx, if_neg (by simp [hx]), h.pairs]
    · obtain ⟨entries, held, sound⟩ := h.table.concat (t := [a, b]) (by simp)
      exact ⟨entries, held, sound⟩

theorem add_long (h : Loaded (done ++ t :: rest) done v) (hlong : 3 ≤ t.length) :
    (t ∈ done → v.add done.length = .error (.repeats t)) ∧
    (t ∉ done → ∃ v', v.add done.length = .ok v' ∧
      Loaded (done ++ t :: rest) (done ++ [t]) v') := by
  have hwide : Loaded (done ++ t :: rest) done { v with longest := max v.longest t.length } :=
    ⟨h.layout, h.initial, h.few, h.slots, h.room,
      fun x hx => (h.longest x hx).trans (le_max_left _ _), h.bytes, h.pairs,
      ⟨h.table.entries, h.table.held, h.table.sound⟩⟩
  obtain ⟨a, b, c, t, rfl⟩ : ∃ a b c s, t = a :: b :: c :: s := by
    rcases t with _ | ⟨a, _ | ⟨b, _ | ⟨c, t⟩⟩⟩ <;> simp at hlong ⊢
  rw [Vocab.add, h.token_length]
  dsimp only
  constructor
  · intro ht
    rw [hwide.insert_of_mem hlong ht]
  · intro ht
    obtain ⟨stop, hinsert, htable⟩ := hwide.insert_of_notMem hlong ht
    rw [hinsert]
    exact ⟨_, rfl, h.layout, ⟨rest, by simp⟩, h.few, h.slots, h.room, h.longest_concat _,
      h.bytes_concat ht (by simp), h.pairs_concat ht (by simp), htable⟩

theorem add {t : Bytes} {rest : List Bytes} (h : Loaded (done ++ t :: rest) done v)
    (hne : t ≠ []) :
    (t ∈ done → v.add done.length = .error (.repeats t)) ∧
    (t ∉ done → ∃ v', v.add done.length = .ok v' ∧
      Loaded (done ++ t :: rest) (done ++ [t]) v') := by
  rcases t with _ | ⟨a, _ | ⟨b, _ | ⟨c, t⟩⟩⟩
  · exact absurd rfl hne
  · exact h.add_byte
  · exact h.add_pair
  · exact h.add_long (by simp)

end Loaded

/-! ## The whole file -/

theorem grow_spec (steps k need : Nat) (hneed : need ≤ 2 ^ k + steps) :
    ∃ k', grow steps (2 ^ k) need = 2 ^ k' ∧ need ≤ 2 ^ k' ∧ k ≤ k' := by
  induction steps generalizing k with
  | zero => exact ⟨k, rfl, by omega, le_rfl⟩
  | succ steps ih =>
    rw [grow]
    split
    · have hpos : 0 < 2 ^ k := by positivity
      rw [Nat.shiftLeft_eq, ← Nat.pow_succ]
      obtain ⟨k', heq, hle, hk⟩ := ih (k + 1) (by rw [Nat.pow_succ]; omega)
      exact ⟨k', heq, hle, by omega⟩
    · exact ⟨k, rfl, by omega, le_rfl⟩

theorem loaded_blank (hfew : tokens.length < rankMask) :
    Loaded tokens [] (.blank (.of tokens)) := by
  have hcount : (Layout.of tokens).offsets.length - 1 = tokens.length := by simp [Layout.of]
  obtain ⟨k, hk, hneed, hk8⟩ :=
    grow_spec (tokens.length * 5 / 2) 8 (tokens.length * 5 / 2) (by omega)
  have hmask : (Vocab.blank (.of tokens)).mask = 2 ^ k - 1 := by
    rw [Vocab.blank, hcount]
    exact congrArg (· - 1) hk
  refine ⟨rfl, nil_prefix, hfew, ⟨k, hmask⟩, ?_, by simp, ?_, ?_, ⟨?_, by simp, ?_⟩⟩
  · rw [hmask]
    omega
  · intro b
    rfl
  · intro a b
    rfl
  · intro slot hslot
    exact absurd rfl hslot
  · have hkeys : ∀ i, (Vocab.blank (.of tokens)).keys i = none := fun _ => rfl
    constructor
    · intro i _ key hkey
      cases hkey
    · intro i _ i' _ key hkey
      cases hkey

/-- The loop over the ranks: it adds tokens that are new, and stops at the first that is
not. -/
theorem foldlM_add {done rest : List Bytes} (h : Loaded (done ++ rest) done v)
    (hne : ∀ t ∈ rest, t ≠ []) (hnodup : done.Nodup) :
    ((done ++ rest).Nodup →
      ∃ v', (List.range' done.length rest.length).foldlM Vocab.add v = .ok v' ∧
      Loaded (done ++ rest) (done ++ rest) v') ∧
    (¬ (done ++ rest).Nodup →
      ∃ e, (List.range' done.length rest.length).foldlM Vocab.add v = .error e) := by
  induction rest generalizing done v with
  | nil =>
    rw [append_nil] at h ⊢
    exact ⟨fun _ => ⟨v, rfl, h⟩, fun hno => absurd hnodup hno⟩
  | cons t rest ih =>
    obtain ⟨ht, hne⟩ := forall_mem_cons.1 hne
    obtain ⟨hold, hnew⟩ := h.add ht
    rw [length_cons, List.range'_succ, foldlM_cons]
    by_cases hmem : t ∈ done
    · refine ⟨fun hyes => ?_, fun _ => ?_⟩
      · exact absurd (disjoint_of_nodup_append hyes hmem (by simp)) not_false
      · rw [hold hmem]
        exact ⟨_, rfl⟩
    · obtain ⟨v', hadd, hload⟩ := hnew hmem
      rw [hadd]
      have hcons : done ++ t :: rest = (done ++ [t]) ++ rest := by simp
      rw [hcons] at hload ⊢
      have hnodup' : (done ++ [t]).Nodup :=
        nodup_append.2 ⟨hnodup, nodup_singleton t, by
          intro x hx y hy hxy
          rw [mem_singleton.1 hy] at hxy
          exact hmem (hxy ▸ hx)⟩
      have hrun := ih hload hne hnodup'
      rw [length_append] at hrun
      exact hrun

theorem token_of_add {v' : Vocab} {r : Nat} (h : v.add r = .ok v') :
    v'.layout = v.layout ∧ (v.layout.token r).isSome := by
  rw [Vocab.add] at h
  split at h
  · cases h
  · rename_i token htoken
    rw [htoken]
    refine ⟨?_, rfl⟩
    dsimp only at h
    split at h
    · split at h
      · cases h
      · rw [← Except.ok.inj h]
    · split at h
      · cases h
      · rw [← Except.ok.inj h]
    · split at h
      · cases h
      · cases h
      · rename_i w hinsert
        rw [← Except.ok.inj h]
        obtain ⟨found, -, hfound⟩ := map_eq_some_iff.1 hinsert
        obtain ⟨slot, -, rfl⟩ := map_eq_some_iff.1 hfound
        rfl

theorem tokens_of_foldlM {v' : Vocab} {ranks : List Nat} (h : ranks.foldlM Vocab.add v = .ok v') :
    ∀ r ∈ ranks, (v.layout.token r).isSome := by
  induction ranks generalizing v with
  | nil => exact fun r hr => absurd hr not_mem_nil
  | cons r ranks ih =>
    rw [foldlM_cons, bind_eq_ok] at h
    obtain ⟨w, hadd, h⟩ := h
    obtain ⟨hlayout, htoken⟩ := token_of_add hadd
    exact forall_mem_cons.2 ⟨htoken, hlayout ▸ ih h⟩

variable {data : Bytes}

/-- What `newVocab` accepts is a rank file. -/
theorem rankFile_of_newVocab (h : newVocab data = .ok v) : ∃ tokens, RankFile data tokens := by
  rw [newVocab, bind_eq_ok] at h
  obtain ⟨layout, hread, h⟩ := h
  rw [bind_eq_ok] at h
  obtain ⟨w, hfold, -⟩ := h
  have hin := tokens_of_foldlM hfold
  obtain ⟨tokens, hfile, -⟩ := rankFile_of_readFile hread fun r hr =>
    hin r (mem_range.2 (by omega))
  exact ⟨tokens, hfile⟩

theorem mem_allBytes (b : UInt8) : b ∈ allBytes :=
  mem_map.2 ⟨b.toNat, mem_range.2 b.toNat_lt, UInt8.ofNat_toNat⟩

theorem ne_nil_of_newVocab (hfile : RankFile data tokens) (hv : newVocab data = .ok v) :
    ∀ t ∈ tokens, t ≠ [] := by
  rintro t ht rfl
  obtain ⟨e, he⟩ := readFile_empty hfile ht
  rw [newVocab, he] at hv
  cases hv

/-- What `newVocab` makes of a rank file of non-empty tokens. -/
theorem newVocab_of_rankFile (h : RankFile data tokens) (hne : ∀ t ∈ tokens, t ≠ []) :
    (tokens.Nodup ∧ (∀ b, [b] ∈ tokens) → ∃ v, newVocab data = .ok v) ∧
    ∀ v, newVocab data = .ok v → Loaded tokens tokens v ∧ tokens.Nodup ∧ ∀ b, [b] ∈ tokens := by
  have hcount : (Layout.of tokens).offsets.length - 1 = tokens.length := by simp [Layout.of]
  have hload : Loaded tokens [] (.blank (.of tokens)) := by
    obtain ⟨-, -, -, -, -, -, hfew, -⟩ := h
    exact loaded_blank hfew
  obtain ⟨hnew, hold⟩ := @foldlM_add _ [] tokens hload hne nodup_nil
  rw [nil_append, length_nil, ← range_eq_range'] at hnew hold
  rw [newVocab, readFile_of_rankFile h hne]
  simp only [bind, Except.bind, hcount]
  by_cases hnodup : tokens.Nodup
  · obtain ⟨v, hfold, hloaded⟩ := hnew hnodup
    have hbyte : ∀ b, v.bytes b = noRank ↔ [b] ∉ tokens := by
      intro b
      rw [hloaded.bytes, rankIn_eq]
      split
      · rename_i hmem
        have hlt := hloaded.idxOf_lt hmem
        have hnone : 2 ^ rankBits < noRank := by decide
        exact iff_of_false (by omega) (not_not.2 hmem)
      · rename_i hmem
        exact iff_of_true rfl hmem
    rw [hfold]
    dsimp only
    split
    · rename_i b hfind
      have hmiss := (hbyte b).1 (by simpa using find?_some hfind)
      exact ⟨fun hyes => absurd (hyes.2 b) hmiss, fun v hv => by cases hv⟩
    · rename_i hfind
      refine ⟨fun _ => ⟨v, rfl⟩, ?_⟩
      rintro v' ⟨⟩
      refine ⟨hloaded, hnodup, fun b => not_not.1 fun hmiss => ?_⟩
      have := find?_eq_none.1 hfind b (mem_allBytes b)
      exact this (decide_eq_true ((hbyte b).2 hmiss))
  · obtain ⟨e, hfold⟩ := hold hnodup
    rw [hfold]
    exact ⟨fun hyes => absurd hyes.1 hnodup, fun v hv => by cases hv⟩

/-- Vocabulary lookup is exact.  Every file `newVocab` accepts is a rank file, and it accepts
a rank file exactly when its tokens are non-empty and pairwise distinct and every single byte
is a token.  In an accepted file the lookup of any byte string ends, with its index among
the tokens or, for a string that is no token, with `noRank`. -/
theorem newVocab_exact (data : Bytes) :
    ((∃ v, newVocab data = .ok v) → ∃ tokens, RankFile data tokens) ∧
    ∀ tokens, RankFile data tokens →
      ((∃ v, newVocab data = .ok v) ↔
        (∀ t ∈ tokens, t ≠ []) ∧ tokens.Nodup ∧ ∀ b, [b] ∈ tokens) ∧
      ∀ v, newVocab data = .ok v → ∀ token,
        v.rank token = some (if token ∈ tokens then tokens.idxOf token else noRank) ∧
        (token ∈ tokens → tokens.idxOf token ≠ noRank) := by
  constructor
  · rintro ⟨v, hv⟩
    exact rankFile_of_newVocab hv
  · intro tokens hfile
    have hne : ∀ v, newVocab data = .ok v → ∀ t ∈ tokens, t ≠ [] := fun v hv =>
      ne_nil_of_newVocab hfile hv
    refine ⟨⟨?_, ?_⟩, ?_⟩
    · rintro ⟨v, hv⟩
      exact ⟨hne v hv, ((newVocab_of_rankFile hfile (hne v hv)).2 v hv).2⟩
    · rintro ⟨htokens, hgood⟩
      exact (newVocab_of_rankFile hfile htokens).1 hgood
    · intro v hv token
      have hloaded := ((newVocab_of_rankFile hfile (hne v hv)).2 v hv).1
      refine ⟨(hloaded.rank_eq (hne v hv) token).trans (by rw [rankIn_eq]), fun hmem => ?_⟩
      have hlt := hloaded.idxOf_lt hmem
      have hnone : 2 ^ rankBits < noRank := by decide
      omega

end Olp.Estimate
