import Olp.Estimate.MergeLarge
import Olp.Estimate.MergeSmall
import Olp.Estimate.Scan

/-!
# Counting and encoding text

`countPiece` and `appendPiece` merge one piece, by the scan of `mergeSmall` or the heap of
`mergeLarge`, and a piece of more than `maxPiece` bytes in chunks.  `Encoding.count` and
`Encoding.encode` do so for the pieces of a text.

`parts` is what both find in a piece: the piece itself when it is a token, and else what the
reference procedure of `Olp.PairMerge` leaves of each chunk.  For a piece of at most `maxPiece`
bytes there is one chunk, and `parts` is `PairMerge.merged` (`parts_eq_merged`).
-/

namespace Olp.Estimate

open PairMerge
open List hiding span

/-- `smallPiece` -/
abbrev smallPiece : Nat := 32

/-- `maxPiece` -/
abbrev maxPiece : Nat := 2 ^ 18

/-- `utf8.RuneStart`: the byte does not continue a rune. -/
def runeStart (b : UInt8) : Bool := b &&& 0xC0 != 0x80

/-- How much of a piece longer than `maxPiece` the next merge takes. -/
def chunkLen (p : Bytes) : Nat :=
  ([maxPiece, maxPiece - 1, maxPiece - 2, maxPiece - 3].find? fun n =>
    p[n]?.any runeStart).getD maxPiece

theorem chunkLen_pos (p : Bytes) : 0 < chunkLen p ∧ chunkLen p ≤ maxPiece := by
  rw [chunkLen]
  cases h : List.find? (fun n => p[n]?.any runeStart)
    [maxPiece, maxPiece - 1, maxPiece - 2, maxPiece - 3] with
  | none => decide
  | some n =>
    have hmem := mem_of_find?_eq_some h
    simp only [mem_cons, not_mem_nil, or_false] at hmem
    rcases hmem with rfl | rfl | rfl | rfl <;> decide

/-- What the merges of a long piece take, one after the other. -/
def chunks (p : Bytes) : List Bytes :=
  if _h : maxPiece < p.length then p.take (chunkLen p) :: chunks (p.drop (chunkLen p)) else [p]
termination_by p.length
decreasing_by
  have := (chunkLen_pos p).1
  rw [List.length_drop]
  omega

section

variable (rank : Bytes → Nat)

def countLarge (p : Bytes) : Option Nat := (mergeLarge rank p).map Large.parts

def appendLarge (p : Bytes) : Option (List Nat) :=
  (mergeLarge rank p).bind fun s => (s.partsFrom p (p.length + 1) 0).map (List.map rank)

/-- The number of tokens in a piece. -/
def countPiece (p : Bytes) : Option Nat :=
  if rank p ≠ noRank then some 1
  else if p.length ≤ smallPiece then some (mergeSmall rank p).parts
  else ((chunks p).mapM (countLarge rank)).map List.sum

/-- The tokens of a piece. -/
def appendPiece (p : Bytes) : Option (List Nat) :=
  if rank p ≠ noRank then some [rank p]
  else if p.length ≤ smallPiece then
    let s := mergeSmall rank p
    some ((List.range s.parts).map fun i => rank (span p (s.bounds i) (s.bounds (i + 1))))
  else ((chunks p).mapM (appendLarge rank)).map List.flatten

/-- Count the pieces of a text that end within its first `limit` bytes, with the number of
bytes they cover. -/
def countFrom (c : Scanner) (text : Bytes) (limit tokens covered : Nat) : Option (Nat × Nat) :=
  if h : covered < text.length then
    if limit < c.scan text covered h then some (tokens, covered)
    else
      (countPiece rank (span text covered (c.scan text covered h))).bind fun n =>
        countFrom c text limit (tokens + n) (c.scan text covered h)
  else some (tokens, covered)
termination_by text.length - covered
decreasing_by
  have := c.lt text covered h
  omega

end

/-- The rank of a text in a vocabulary, whose lookups always end once it is loaded. -/
def Vocab.rankOf (v : Vocab) (t : Bytes) : Nat := (v.rank t).getD noRank

/-- An encoding: its rank file and its scanner. -/
structure Encoding where
  ranks : Bytes
  scanner : Scanner

namespace Encoding

variable (e : Encoding)

def countPrefix (text : Bytes) (limit : Nat) : Except Refusal (Option (Nat × Nat)) := do
  let v ← newVocab e.ranks
  pure (countFrom v.rankOf e.scanner text limit 0 0)

/-- The number of tokens in a text. -/
def count (text : Bytes) : Except Refusal (Option Nat) :=
  (e.countPrefix text text.length).map fun n => n.map Prod.fst

/-- The tokens of a text. -/
def encode (text : Bytes) : Except Refusal (Option (List Nat)) := do
  let v ← newVocab e.ranks
  pure (((e.scanner.pieces text).mapM (appendPiece v.rankOf)).map List.flatten)

end Encoding

/-! ## Chunks -/

theorem flatten_chunks (p : Bytes) : (chunks p).flatten = p := by
  fun_induction chunks p with
  | case1 p h ih => rw [flatten_cons, ih, take_append_drop]
  | case2 p h => simp

variable {p : Bytes}

theorem chunks_of_le (h : p.length ≤ maxPiece) : chunks p = [p] := by
  rw [chunks, dif_neg (Nat.not_lt.2 h)]

theorem mem_chunks {q : Bytes} (hne : p ≠ []) (hq : q ∈ chunks p) :
    q ≠ [] ∧ q.length ≤ maxPiece := by
  fun_induction chunks p with
  | case1 p h ih =>
    obtain ⟨hpos, hle⟩ := chunkLen_pos p
    rcases mem_cons.1 hq with rfl | hq
    · rw [← length_pos_iff, length_take]
      omega
    · refine ih ?_ hq
      rw [ne_eq, drop_eq_nil_iff]
      omega
  | case2 p h =>
    rw [mem_singleton.1 hq]
    exact ⟨hne, Nat.not_lt.1 h⟩

/-! ## What the merges find -/

abbrev letters (p : Bytes) : List Bytes := p.map fun b => [b]

/-- The parts of a piece. -/
def parts (rank : Bytes → Nat) (p : Bytes) : List Bytes :=
  if rank p < noRank then [p] else (chunks p).flatMap fun q => mergeAll rank noRank (letters q)

section

variable (rank : Bytes → Nat)

theorem parts_eq_merged (h : p.length ≤ maxPiece) : parts rank p = merged rank noRank p := by
  rw [parts, merged, chunks_of_le h]
  simp

theorem flatten_letters (p : Bytes) : (letters p).flatten = p := by
  induction p with
  | nil => rfl
  | cons b p ih => rw [letters, map_cons, flatten_cons, ih]; rfl

theorem flatten_parts (p : Bytes) : (parts rank p).flatten = p := by
  rw [parts]
  split
  · simp
  · have hchunk : ∀ q, (mergeAll rank noRank (letters q)).flatten = q := fun q => by
      rw [flatten_mergeAll, flatten_letters]
    rw [flatMap_def, flatten_flatten, map_map]
    conv_rhs => rw [← flatten_chunks p]
    congr 1
    exact map_id'' hchunk _

/-- Every part of a piece is a token. -/
theorem lt_of_mem_parts {rank : Bytes → Nat} (hbytes : ∀ b, rank [b] < noRank) {q : Bytes}
    (hq : q ∈ parts rank p) : rank q < noRank := by
  rw [parts] at hq
  split at hq
  · rename_i h
    rwa [mem_singleton.1 hq]
  · obtain ⟨chunk, -, hq⟩ := mem_flatMap.1 hq
    refine ranked_mergeAll ?_ q hq
    intro x hx
    obtain ⟨b, -, rfl⟩ := mem_map.1 hx
    exact hbytes b

theorem letters_eq (p : Bytes) : letters p = pieces p (List.range (p.length + 1)) := by
  rw [range_eq_range', pieces_range' p 0 (Nat.zero_add _), drop_zero]

theorem mergeAll_letters (p : Bytes) : mergeAll rank noRank (letters p)
    = pieces p (mergeCuts (fun a c => rank (span p a c)) noRank (List.range (p.length + 1))) := by
  rw [letters_eq, mergeAll_pieces p pairwise_lt_range]

theorem pieces_map_range (p : Bytes) (bounds : Nat → Nat) (n : Nat) :
    pieces p ((List.range (n + 1)).map bounds)
      = (List.range n).map fun i => span p (bounds i) (bounds (i + 1)) := by
  rw [pieces_eq_zipWith]
  refine ext_getElem ?_ fun i h₁ h₂ => ?_
  · simp
  · simp

/-- The cuts of the small merge are those of the reference procedure. -/
theorem mergeSmall_parts (p : Bytes) :
    pieces p (mergeSmall rank p).cuts = mergeAll rank noRank (letters p) := by
  have hcuts : (Small.start rank p).cuts = List.range (p.length + 1) := map_id _
  rw [mergeAll_letters, mergeSmall, ((Small.holds_start rank p).run).1, hcuts]

end

theorem parts_of_eq {rank : Bytes → Nat} (h : rank p = noRank) :
    parts rank p = (chunks p).flatMap fun q => mergeAll rank noRank (letters q) :=
  if_neg h.not_lt

section

variable {rank : Bytes → Nat} (hrank : ∀ t, rank t ≤ noRank)

include hrank

theorem parts_of_ne (h : rank p ≠ noRank) : parts rank p = [p] :=
  if_pos (lt_of_le_of_ne (hrank p) h)

variable (hne : p ≠ [])

include hne

/-- The linked parts of the large merge are those of the reference procedure. -/
theorem mergeLarge_parts (hp : p.length ≤ maxPiece) :
    ∃ s, mergeLarge rank p = some s ∧ s.parts = (mergeAll rank noRank (letters p)).length ∧
      s.partsFrom p (p.length + 1) 0 = some (mergeAll rank noRank (letters p)) := by
  have hfits : maxPiece ≤ 2 ^ 32 := by decide
  obtain ⟨s, hs, hholds⟩ := mergeLarge_spec hrank hne (hp.trans hfits)
  refine ⟨s, hs, ?_⟩
  rw [mergeAll_letters]
  have hlen := length_mergeCuts_le (fun a c => rank (span p a c)) noRank (List.range (p.length + 1))
  rw [length_range] at hlen
  refine ⟨?_, ?_⟩
  · rw [length_pieces, ← hholds.parts, Nat.add_sub_cancel]
  · exact hholds.partsFrom_eq hholds.first (hlen.trans_eq (Nat.zero_add _).symm)

theorem countLarge_eq (hp : p.length ≤ maxPiece) :
    countLarge rank p = some (mergeAll rank noRank (letters p)).length := by
  obtain ⟨s, hs, hparts, -⟩ := mergeLarge_parts hrank hne hp
  rw [countLarge, hs, Option.map_some, hparts]

theorem appendLarge_eq (hp : p.length ≤ maxPiece) :
    appendLarge rank p = some ((mergeAll rank noRank (letters p)).map rank) := by
  obtain ⟨s, hs, -, hparts⟩ := mergeLarge_parts hrank hne hp
  rw [appendLarge, hs, Option.bind_some, hparts, Option.map_some]

theorem countPiece_eq : countPiece rank p = some (parts rank p).length := by
  rw [countPiece]
  by_cases htoken : rank p = noRank
  · rw [if_neg (not_not.2 htoken), parts_of_eq htoken]
    split
    · rename_i hsmall
      have hle : smallPiece ≤ maxPiece := by decide
      rw [chunks_of_le (hsmall.trans hle), flatMap_singleton, ← mergeSmall_parts, length_pieces,
        Small.cuts, length_map, length_range, Nat.add_sub_cancel]
    · rw [mapM_eq_map fun q hq => countLarge_eq hrank (mem_chunks hne hq).1 (mem_chunks hne hq).2,
        Option.map_some, length_flatMap]
  · rw [if_pos htoken, parts_of_ne hrank htoken]
    rfl

theorem appendPiece_eq : appendPiece rank p = some ((parts rank p).map rank) := by
  rw [appendPiece]
  by_cases htoken : rank p = noRank
  · rw [if_neg (not_not.2 htoken), parts_of_eq htoken]
    split
    · rename_i hsmall
      have hle : smallPiece ≤ maxPiece := by decide
      rw [chunks_of_le (hsmall.trans hle), flatMap_singleton, ← mergeSmall_parts, Small.cuts,
        pieces_map_range, map_map]
      rfl
    · rw [mapM_eq_map fun q hq => appendLarge_eq hrank (mem_chunks hne hq).1 (mem_chunks hne hq).2,
        Option.map_some, map_flatMap, flatMap_def]
  · rw [if_pos htoken, parts_of_ne hrank htoken]
    rfl

end

/-! ## Whole texts -/

section

variable {rank : Bytes → Nat} (c : Scanner)

/-- The parts of all pieces of a text. -/
def textParts (rank : Bytes → Nat) (text : Bytes) (i : Nat) : List Bytes :=
  (c.piecesFrom text i).flatMap (parts rank)

theorem textParts_of_lt (rank : Bytes → Nat) {text : Bytes} {i : Nat} (h : i < text.length) :
    textParts c rank text i
      = parts rank (span text i (c.scan text i h)) ++ textParts c rank text (c.scan text i h) := by
  rw [textParts, Scanner.piecesFrom, dif_pos h, flatMap_cons]
  rfl

/-- The parts of a text concatenate to it. -/
theorem flatten_textParts (rank : Bytes → Nat) (text : Bytes) :
    (textParts c rank text 0).flatten = text := by
  have hpieces : ∀ l : List Bytes, (l.flatMap (parts rank)).flatten = l.flatten := by
    intro l
    induction l with
    | nil => rfl
    | cons p l ih => rw [flatMap_cons, flatten_append, ih, flatten_parts]; rfl
  rw [textParts, hpieces]
  exact c.flatten_pieces text

theorem countFrom_eq (hrank : ∀ t, rank t ≤ noRank) {text : Bytes} {limit : Nat}
    (hlimit : text.length ≤ limit) (tokens covered : Nat) (hcovered : covered ≤ text.length) :
    countFrom rank c text limit tokens covered
      = some (tokens + (textParts c rank text covered).length, text.length) := by
  fun_induction countFrom rank c text limit tokens covered with
  | case1 tokens covered h hover =>
    have := c.le text covered h
    omega
  | case2 tokens covered h hover ih =>
    have hne : span text covered (c.scan text covered h) ≠ [] := by
      have hlt := c.lt text covered h
      rw [ne_eq, span, drop_eq_nil_iff, length_take]
      omega
    rw [countPiece_eq hrank hne, Option.bind_some, ih _ (c.le text covered h),
      textParts_of_lt c rank h, length_append, Nat.add_assoc]
  | case3 tokens covered h =>
    have hend : covered = text.length := by omega
    rw [textParts, Scanner.piecesFrom, dif_neg h, hend]
    rfl

end

/-- The ranks a vocabulary gives are the places of its tokens, and every byte is a token. -/
structure Ranks (tokens : List Bytes) (rank : Bytes → Nat) : Prop where
  rank_eq : ∀ t, rank t = if t ∈ tokens then tokens.idxOf t else noRank
  lt : ∀ t ∈ tokens, tokens.idxOf t < noRank
  bytes : ∀ b, [b] ∈ tokens

namespace Ranks

variable {tokens : List Bytes} {rank : Bytes → Nat} (h : Ranks tokens rank)

include h

theorem le (t : Bytes) : rank t ≤ noRank := by
  rw [h.rank_eq]
  split
  · exact (h.lt t ‹_›).le
  · exact Nat.le_refl _

theorem lt_iff {t : Bytes} : rank t < noRank ↔ t ∈ tokens := by
  rw [h.rank_eq]
  split
  · exact iff_of_true (h.lt t ‹_›) ‹_›
  · exact iff_of_false (Nat.lt_irrefl _) ‹_›

theorem getD_rank {t : Bytes} (ht : rank t < noRank) : tokens.getD (rank t) [] = t := by
  have hmem := h.lt_iff.1 ht
  rw [h.rank_eq, if_pos hmem, getD_eq_getElem?_getD,
    getElem?_eq_getElem (idxOf_lt_length_of_mem hmem), getElem_idxOf]
  rfl

theorem flatMap_getD {l : List Bytes} (hl : ∀ q ∈ l, rank q < noRank) :
    (l.map rank).flatMap (fun id => tokens.getD id []) = l.flatten := by
  rw [flatMap_map, flatMap_def]
  congr 1
  conv_rhs => rw [← map_id l]
  exact map_congr_left fun q hq => h.getD_rank (hl q hq)

end Ranks

/-- What is looked up in an accepted rank file is the place of a token in it. -/
theorem ranks_of_rankFile {data : Bytes} {tokens : List Bytes} {v : Vocab}
    (hfile : RankFile data tokens) (hv : newVocab data = .ok v) :
    Ranks tokens v.rankOf ∧ ∀ t, v.rank t = some (v.rankOf t) := by
  have hne := ne_nil_of_newVocab hfile hv
  obtain ⟨hloaded, -, hbytes⟩ := (newVocab_of_rankFile hfile hne).2 v hv
  have hrank : ∀ t, v.rank t = some (if t ∈ tokens then tokens.idxOf t else noRank) := fun t =>
    (hloaded.rank_eq hne t).trans (by rw [rankIn_eq])
  have hof : ∀ t, v.rankOf t = if t ∈ tokens then tokens.idxOf t else noRank := fun t => by
    rw [Vocab.rankOf, hrank]
    rfl
  refine ⟨⟨hof, ?_, hbytes⟩, fun t => by rw [hrank, hof]⟩
  intro t ht
  have hlt := hloaded.idxOf_lt ht
  have hnone : 2 ^ rankBits < noRank := by decide
  omega

/-- An accepted file is a rank file, in which every lookup ends. -/
theorem ranks_of_newVocab {data : Bytes} {v : Vocab} (hv : newVocab data = .ok v) :
    ∃ tokens, RankFile data tokens ∧ Ranks tokens v.rankOf ∧ ∀ t, v.rank t = some (v.rankOf t) := by
  obtain ⟨tokens, hfile⟩ := rankFile_of_newVocab hv
  exact ⟨tokens, hfile, ranks_of_rankFile hfile hv⟩

namespace Encoding

variable {data : Bytes} {v : Vocab} {tokens : List Bytes} (c : Scanner)

/-- `Encode` returns the ranks of the parts of the text. -/
theorem encode_eq (hv : newVocab data = .ok v) (hranks : Ranks tokens v.rankOf) (text : Bytes) :
    encode ⟨data, c⟩ text = .ok (some ((textParts c v.rankOf text 0).map v.rankOf)) := by
  have hpieces : (c.pieces text).mapM (appendPiece v.rankOf)
      = some ((c.pieces text).map fun p => (parts v.rankOf p).map v.rankOf) :=
    mapM_eq_map fun p hp => appendPiece_eq hranks.le (c.ne_nil_of_mem_pieces hp)
  rw [encode, hv]
  change Except.ok (Option.map List.flatten ((c.pieces text).mapM (appendPiece v.rankOf))) = _
  rw [hpieces, Option.map_some, textParts, map_flatMap, flatMap_def]
  rfl

/-- `Count` returns the number of the parts of the text. -/
theorem count_eq (hv : newVocab data = .ok v) (hranks : Ranks tokens v.rankOf) (text : Bytes) :
    count ⟨data, c⟩ text = .ok (some (textParts c v.rankOf text 0).length) := by
  rw [count, countPrefix, hv]
  change Except.ok _ = _
  rw [countFrom_eq c hranks.le (Nat.le_refl _) 0 0 (Nat.zero_le _), Nat.zero_add]
  rfl

end Encoding

/-- **Byte-pair merging is canonical.**  In an accepted rank file every lookup ends.  Both
merges of a piece of at most `maxPiece` bytes end in the parts of the reference procedure, and
`appendPiece` and `countPiece` return the ranks and the number of the parts of the piece.  The
tokens of any text concatenate to it, and there are as many as are counted. -/
theorem merging_canonical {data : Bytes} {v : Vocab} (hv : newVocab data = .ok v) :
    (∀ t, v.rank t = some (v.rankOf t)) ∧
    (∀ p, p ≠ [] → p.length ≤ maxPiece →
      pieces p (mergeSmall v.rankOf p).cuts = mergeAll v.rankOf noRank (letters p) ∧
      (∃ s, mergeLarge v.rankOf p = some s ∧
        s.partsFrom p (p.length + 1) 0 = some (mergeAll v.rankOf noRank (letters p))) ∧
      appendPiece v.rankOf p = some ((merged v.rankOf noRank p).map v.rankOf) ∧
      countPiece v.rankOf p = some (merged v.rankOf noRank p).length) ∧
    ∃ tokens, RankFile data tokens ∧ ∀ (c : Scanner) (text : Bytes), ∃ ids,
      Encoding.encode ⟨data, c⟩ text = .ok (some ids) ∧
      Encoding.count ⟨data, c⟩ text = .ok (some ids.length) ∧
      ids.flatMap (fun id => tokens.getD id []) = text ∧ ∀ id ∈ ids, id < tokens.length := by
  obtain ⟨tokens, hfile, hranks, hends⟩ := ranks_of_newVocab hv
  refine ⟨hends, ?_, tokens, hfile, ?_⟩
  · intro p hne hle
    refine ⟨mergeSmall_parts v.rankOf p, ?_, ?_, ?_⟩
    · obtain ⟨s, hs, -, hparts⟩ := mergeLarge_parts hranks.le hne hle
      exact ⟨s, hs, hparts⟩
    · rw [appendPiece_eq hranks.le hne, parts_eq_merged v.rankOf hle]
    · rw [countPiece_eq hranks.le hne, parts_eq_merged v.rankOf hle]
  · intro c text
    have hlt : ∀ q ∈ textParts c v.rankOf text 0, v.rankOf q < noRank := by
      intro q hq
      obtain ⟨p, -, hq⟩ := mem_flatMap.1 hq
      exact lt_of_mem_parts (fun b => hranks.lt_iff.2 (hranks.bytes b)) hq
    refine ⟨(textParts c v.rankOf text 0).map v.rankOf,
      Encoding.encode_eq c hv hranks text, ?_, ?_, ?_⟩
    · rw [Encoding.count_eq c hv hranks, length_map]
    · rw [hranks.flatMap_getD hlt, flatten_textParts]
    · intro id hid
      obtain ⟨q, hq, rfl⟩ := mem_map.1 hid
      have hmem := hranks.lt_iff.1 (hlt q hq)
      rw [hranks.rank_eq, if_pos hmem]
      exact idxOf_lt_length_of_mem hmem

def byteTokens : List Bytes := letters ((List.range 256).map UInt8.ofNat)

/-- The single bytes, and one token of two. -/
def pairTokens : List Bytes := byteTokens ++ [[0x61, 0x62]]

def pairFile : Bytes :=
  rankMagic ++ ([0x81, 0x02] ++
    (List.flatten (byteTokens.map (fun _ => [1]) ++ [[2]]) ++ pairTokens.flatten))

theorem length_pairTokens : pairTokens.length = 257 := by
  simp [pairTokens, byteTokens, letters]

theorem mem_byteTokens {t : Bytes} : t ∈ byteTokens ↔ ∃ b, t = [b] := by
  constructor
  · intro ht
    obtain ⟨b, -, rfl⟩ := mem_map.1 ht
    exact ⟨b, rfl⟩
  · rintro ⟨b, rfl⟩
    refine mem_map.2 ⟨b, mem_map.2 ⟨b.toNat, mem_range.2 b.toNat_lt, ?_⟩, rfl⟩
    rw [UInt8.ofNat_toNat]

theorem rankFile_pairFile : RankFile pairFile pairTokens := by
  have hflat : pairTokens.flatten.length = 258 := by
    rw [pairTokens, byteTokens, flatten_append, flatten_letters]
    simp
  refine ⟨[0x81, 0x02], byteTokens.map (fun _ => [1]) ++ [[2]], rfl, ?_, ?_, ?_, ?_, ?_⟩
  · rw [length_pairTokens]
    exact ⟨⟨[0x81], 0x02, rfl, by simp, by decide⟩, by decide, by decide⟩
  · refine rel_append ?_ (.cons ⟨⟨[], 2, rfl, by simp, by decide⟩, by decide, rfl⟩ .nil)
    rw [List.forall₂_map_left_iff, List.forall₂_same]
    intro t ht
    obtain ⟨b, rfl⟩ := mem_byteTokens.1 ht
    exact ⟨⟨[], 1, rfl, by simp, by decide⟩, by decide, rfl⟩
  · rw [length_pairTokens]
    decide
  · rw [length_pairTokens]
    decide
  · rw [hflat]
    decide

theorem newVocab_pairFile : ∃ v, newVocab pairFile = .ok v := by
  refine (newVocab_of_rankFile rankFile_pairFile ?_).1 ⟨?_, ?_⟩
  · intro t ht
    rcases mem_append.1 ht with ht | ht
    · obtain ⟨b, rfl⟩ := mem_byteTokens.1 ht
      simp
    · simp [mem_singleton.1 ht]
  · refine nodup_append.2 ⟨?_, nodup_singleton _, ?_⟩
    · refine List.Nodup.map (fun a b hab => (List.cons.inj hab).1)
        (List.Nodup.map_on ?_ nodup_range)
      intro a ha b hb hab
      rw [mem_range] at ha hb
      have := congrArg UInt8.toNat hab
      rwa [UInt8.toNat_ofNat', UInt8.toNat_ofNat', Nat.mod_eq_of_lt ha, Nat.mod_eq_of_lt hb] at this
    · intro t ht t' ht'
      obtain ⟨b, rfl⟩ := mem_byteTokens.1 ht
      simp [mem_singleton.1 ht']
  · exact fun b => mem_append_left _ (mem_byteTokens.2 ⟨b, rfl⟩)

/-- The first two of three bytes merge. -/
theorem merging_canonical_pair : ∃ v, newVocab pairFile = .ok v ∧
    countPiece v.rankOf [0x61, 0x62, 0x63] = some 2 := by
  obtain ⟨v, hv⟩ := newVocab_pairFile
  refine ⟨v, hv, ?_⟩
  have hranks := (ranks_of_rankFile rankFile_pairFile hv).1
  have hpair : v.rankOf [0x61, 0x62] < noRank :=
    hranks.lt_iff.2 (mem_append_right _ (mem_singleton_self _))
  have hnone : ∀ t, t.length ≠ 1 → t ≠ [0x61, 0x62] → v.rankOf t = noRank := by
    intro t hone hne
    rw [hranks.rank_eq, if_neg]
    rw [pairTokens, mem_append, mem_byteTokens, mem_singleton]
    rintro (⟨b, rfl⟩ | h)
    · exact hone rfl
    · exact hne h
  have hmerge : merged v.rankOf noRank [0x61, 0x62, 0x63] = [[0x61, 0x62], [0x63]] := by
    have hfirst : lowest noRank (pairRanks v.rankOf [[0x61], [0x62], [0x63]]) = some 0 := by
      simp [pairRanks, lowest, hnone, hpair]
    have hlast : lowest noRank (pairRanks v.rankOf [[0x61, 0x62], [0x63]]) = none := by
      simp [pairRanks, lowest, hnone]
    rw [merged, if_neg (by simp [hnone])]
    exact (mergeAll_of_some hfirst).trans (mergeAll_of_none hlast)
  rw [((merging_canonical hv).2.1 [0x61, 0x62, 0x63] (by simp) (by decide)).2.2.2, hmerge]
  rfl

end Olp.Estimate
