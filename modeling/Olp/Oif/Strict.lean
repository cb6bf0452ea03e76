import Olp.Oif.Spans
import Olp.Oif.Paths

/-!
# The source parser is exact

`ParseJSON` accepts the bytes that are valid UTF-8, are a text of the grammar whose surrogates are
paired and whose names are distinct, and stay within the limits.  The values of what it accepts
nest, each is parsed again from its own bytes, and `Text` decodes strings.
-/

namespace Olp.Oif.Scan

open List

/-! ## The text of a string -/

theorem textLoop_plain {fuel : ℕ} {b : UInt8} (hb : b ≠ byte '\\') (s : Bytes) :
    textLoop fuel (b :: s) = (textLoop fuel s).map (b :: ·) := by
  cases fuel with
  | zero => rfl
  | succ fuel =>
    have hne : (b != byte '\\') = true := bne_iff_ne.mpr hb
    rw [textLoop, textLoop, dropWhile_cons, takeWhile_cons, hne, Option.map_map]
    rfl

theorem textLoop_append {fuel : ℕ} {p : Bytes} (hp : ∀ b ∈ p, b ≠ byte '\\') (s : Bytes) :
    textLoop fuel (p ++ s) = (textLoop fuel s).map (p ++ ·) := by
  induction p with
  | nil => simp
  | cons b p ih =>
    rw [cons_append, textLoop_plain (hp b mem_cons_self),
      ih fun x hx => hp x (mem_cons_of_mem b hx), Option.map_map]
    rfl

theorem textLoop_escape (fuel : ℕ) (s : Bytes) :
    textLoop (fuel + 1) (byte '\\' :: s) = decodeEscape (textLoop fuel) (byte '\\' :: s) := by
  rw [textLoop, dropWhile_cons, takeWhile_cons]
  simp

variable {a b c d : Char} {n : ℕ}

theorem hexRune_utf8 (h : Oif.hex a b c d = some n) : hexRune (utf8 [a, b, c, d]) = n := by
  have hlt := hex_eq_some h
  rw [utf8_ascii hlt.1, utf8_ascii hlt.2.1, utf8_ascii hlt.2.2.1, utf8_ascii hlt.2.2.2, utf8_nil,
    hexRune, parseHex_byte hlt, h]
  rfl

theorem length_utf8_hex (h : Oif.hex a b c d = some n) : (utf8 [a, b, c, d]).length = 4 := by
  have hlt := hex_eq_some h
  rw [utf8_ascii hlt.1, utf8_ascii hlt.2.1, utf8_ascii hlt.2.2.1, utf8_ascii hlt.2.2.2]
  rfl

theorem escaped_byte {e : Char} (h : simpleEscape e = some c) :
    byte e ≠ byte 'u' ∧ [escaped (byte e)] = String.utf8EncodeChar c := by
  unfold simpleEscape at h
  split at h
  all_goals cases h
  all_goals decide

theorem decodeRune_eq {high low : ℕ} (hh : isHigh high = true) (hl : isLow low = true) :
    writeRune (decodeRune high low) = String.utf8EncodeChar (pair high low) := by
  have hsum : (high - 0xD800) * 0x400 + (low - 0xDC00) + 0x10000 =
      0x10000 + (high - 0xD800) * 0x400 + (low - 0xDC00) := by omega
  rw [decodeRune, hh, hl, Bool.and_self, if_pos rfl, hsum, writeRune, pair]

section Decode

variable {next : Bytes → Option Bytes} {s : Bytes}

theorem decodeEscape_simple {e : Char} (h : simpleEscape e = some c) :
    decodeEscape next (byte '\\' :: byte e :: s) = (next s).map (String.utf8EncodeChar c ++ ·) := by
  obtain ⟨hu, hc⟩ := escaped_byte h
  rw [decodeEscape, if_neg hu, hc]

theorem hexRune_append (h : Oif.hex a b c d = some n) (t : Bytes) :
    ¬(utf8 [a, b, c, d] ++ t).length < 4 ∧ hexRune ((utf8 [a, b, c, d] ++ t).take 4) = n ∧
      (utf8 [a, b, c, d] ++ t).drop 4 = t := by
  have hlen := length_utf8_hex h
  refine ⟨?_, ?_, ?_⟩
  · rw [length_append, hlen]
    omega
  · rw [← hlen, take_left, hexRune_utf8 h]
  · rw [← hlen, drop_left]

theorem decodeEscape_unit (h : Oif.hex a b c d = some n) (hlow : ¬isLow n = true)
    (hhigh : ¬isHigh n = true) :
    decodeEscape next (byte '\\' :: byte 'u' :: (utf8 [a, b, c, d] ++ s)) =
      (next s).map (String.utf8EncodeChar (.ofNat n) ++ ·) := by
  obtain ⟨hfour, hrune, hdrop⟩ := hexRune_append h s
  rw [decodeEscape, if_pos rfl, if_neg hfour]
  dsimp only
  rw [hrune, hdrop, isSurrogate, Bool.eq_false_of_not_eq_true hlow,
    Bool.eq_false_of_not_eq_true hhigh, Bool.or_false, if_neg Bool.false_ne_true]
  rfl

theorem decodeEscape_pair {a' b' c' d' : Char} {low : ℕ} (h : Oif.hex a b c d = some n)
    (h' : Oif.hex a' b' c' d' = some low) (hhigh : isHigh n = true) (hlow : isLow low = true) :
    decodeEscape next (byte '\\' :: byte 'u' :: (utf8 [a, b, c, d] ++
        (byte '\\' :: byte 'u' :: (utf8 [a', b', c', d'] ++ s)))) =
      (next s).map (String.utf8EncodeChar (pair n low) ++ ·) := by
  obtain ⟨hfour, hrune, hdrop⟩ :=
    hexRune_append h (byte '\\' :: byte 'u' :: (utf8 [a', b', c', d'] ++ s))
  obtain ⟨hfour', hrune', hdrop'⟩ := hexRune_append h' s
  rw [decodeEscape, if_pos rfl, if_neg hfour]
  dsimp only
  rw [hrune, hdrop, isSurrogate, hhigh, Bool.true_or, if_pos rfl]
  simp only [drop_succ_cons, drop_zero, length_cons]
  rw [if_neg (by omega), hrune', hdrop', decodeRune_eq hhigh hlow]

end Decode

theorem utf8_unit (h : Oif.hex a b c d = some n) :
    utf8 (Piece.unit a b c d n h).text = byte '\\' :: byte 'u' :: utf8 [a, b, c, d] := by
  rw [Piece.text, utf8_ascii (by decide), utf8_ascii (by decide)]

variable {t : List Char}

/-- `Value.text` decodes the inside of a string. -/
theorem textLoop_eq {ps : List Piece} (h : meaning ps = some t) :
    ∀ fuel, (utf8 (ps.flatMap Piece.text)).length < fuel →
      textLoop fuel (utf8 (ps.flatMap Piece.text)) = some (utf8 t) := by
  refine meaning_induction (P := fun ps t => ∀ fuel, (utf8 (ps.flatMap Piece.text)).length < fuel →
    textLoop fuel (utf8 (ps.flatMap Piece.text)) = some (utf8 t)) ?_ ?_ h
  · intro fuel hf
    obtain ⟨f, rfl⟩ := Nat.exists_eq_succ_of_ne_zero (Nat.ne_zero_of_lt hf)
    rfl
  · intro ps c qs t hps _ ih fuel hf
    obtain ⟨f, rfl⟩ := Nat.exists_eq_succ_of_ne_zero (Nat.ne_zero_of_lt hf)
    rw [flatMap_append, utf8_append, length_append] at hf
    rw [flatMap_append, utf8_append]
    cases hps with
    | plain hc =>
      have hplain : ∀ b ∈ utf8 [c], b ≠ byte '\\' := by
        rintro b hb rfl
        exact hc.2.2 (mem_singleton.mp ((backslash_mem_utf8 [c]).mp hb)).symm
      rw [show List.flatMap Piece.text [Piece.plain c hc] = [c] from rfl, textLoop_append hplain,
        ih _ (Nat.lt_of_le_of_lt (Nat.le_add_left _ _) hf), Option.map_some, ← utf8_append]
      rfl
    | @escape e _ he =>
      have hascii :=
        lt_of_mem_simple (mem_simple.mpr (by rw [he]; rfl : (simpleEscape e).isSome = true))
      have htext : utf8 (List.flatMap Piece.text [Piece.escape e c he]) = [byte '\\', byte e] := by
        rw [show List.flatMap Piece.text [Piece.escape e c he] = ['\\', e] from rfl,
          utf8_ascii (by decide), utf8_ascii hascii, utf8_nil]
      rw [htext] at hf ⊢
      rw [cons_append, singleton_append, textLoop_escape, decodeEscape_simple he,
        ih f (by simp at hf; omega)]
      rfl
    | @unit a b x d n hn hlow hhigh =>
      have htext : utf8 (List.flatMap Piece.text [Piece.unit a b x d n hn]) =
          byte '\\' :: byte 'u' :: utf8 [a, b, x, d] := by
        rw [flatMap_cons, flatMap_nil, append_nil, utf8_unit]
      rw [htext] at hf ⊢
      rw [cons_append, cons_append, textLoop_escape, decodeEscape_unit hn hlow hhigh,
        ih f (by simp at hf; omega)]
      rfl
    | @pair a b x d a' b' x' d' n low hn hn' hlow hhigh hlow' =>
      have htext :
        utf8 (List.flatMap Piece.text [Piece.unit a b x d n hn, Piece.unit a' b' x' d' low hn']) =
          byte '\\' :: byte 'u' :: (utf8 [a, b, x, d] ++
            (byte '\\' :: byte 'u' :: utf8 [a', b', x', d'])) := by
        rw [flatMap_cons, flatMap_cons, flatMap_nil, append_nil, utf8_append,
          utf8_unit, utf8_unit, cons_append, cons_append]
      rw [htext] at hf ⊢
      rw [cons_append, cons_append, append_assoc, cons_append, cons_append,
        textLoop_escape, decodeEscape_pair hn hn' hhigh hlow', ih f (by simp at hf; omega)]
      rfl

/-! ## What is accepted -/

theorem follows_root (t : List Char) (m d : ℕ) :
    Follows (Found (utf8 t) id (Denotes (utf8 t)) (pos (utf8 t) t))
      (value (utf8 t).length m d ⟨utf8 t, 0⟩) (Oif.value m d ⟨t, 0⟩) :=
  value_follows (utf8 t) m d ⟨utf8 t, 0⟩ ⟨t, 0⟩ ⟨rfl, rfl, suffix_refl _⟩

theorem space_eq_nil : space (utf8 t) = [] ↔ Oif.space t = [] := by
  rw [space_utf8, ← utf8_nil, utf8_injective.eq_iff]

variable {data : Bytes}

variable {limits : Limits}

/-- What an accepted input is. -/
theorem parseJSON_eq_ok {d : Document} (h : parseJSON data limits = .ok d) :
    data.length ≤ limits.effective.maxBytes ∧ ∃ t n, data = utf8 t ∧
      parseText limits.effective t = .ok n ∧ Denotes data d.root n ∧ Nested d.root ∧
      d.root.stop ≤ data.length := by
  unfold parseJSON at h
  dsimp only at h
  split at h
  · cases h
  · rename_i hbytes
    refine ⟨Nat.le_of_not_lt hbytes, ?_⟩
    split at h
    · cases h
    · rename_i hvalid
      obtain ⟨t, rfl⟩ := valid_iff.mp (Bool.not_eq_false _ ▸ hvalid)
      have hfollows := follows_root t limits.effective.maxNodes (limits.effective.maxDepth + 1)
      split at h
      · cases h
      · rename_i root s hvalue
        split at h
        · rename_i hspace
          cases h
          rw [hvalue] at hfollows
          generalize hy : Oif.value _ _ _ = y at hfollows
          cases hfollows with
          | @ok _ b hfound =>
            refine ⟨t, b.1, rfl, ?_, hfound.denotes, hfound.nested, ?_⟩
            · rw [hfound.same.rest, space_eq_nil] at hspace
              unfold parseText
              rw [hy]
              simp only [bind_eq_ok, require_eq_ok]
              exact ⟨b, rfl, (), hspace, rfl⟩
            · exact Nat.le_trans (Nat.le_of_eq hfound.stop) (Nat.sub_le _ _)
        · cases h

/-- What the text parser accepts the byte parser accepts, and records the same tree. -/
theorem exists_parseJSON {n : Node} (hlen : (utf8 t).length ≤ limits.effective.maxBytes)
    (h : parseText limits.effective t = .ok n) :
    ∃ d, parseJSON (utf8 t) limits = .ok d ∧ Denotes (utf8 t) d.root n := by
  unfold parseText at h
  simp only [bind_eq_ok, require_eq_ok] at h
  obtain ⟨⟨n', s⟩, hn, _, hspace, h⟩ := h
  cases h
  have hfollows := follows_root t limits.effective.maxNodes (limits.effective.maxDepth + 1)
  rw [hn] at hfollows
  generalize hx : value _ _ _ _ = x at hfollows
  cases hfollows with
  | @ok a _ hfound =>
    refine ⟨⟨utf8 t, limits.effective, a.1⟩, ?_, hfound.denotes⟩
    have hend : space a.2.rest = [] := by
      rw [hfound.same.rest, space_eq_nil]
      exact hspace
    unfold parseJSON
    rw [if_neg (Nat.not_lt.mpr hlen), if_neg (by rw [valid_iff.mpr ⟨t, rfl⟩]; decide), hx]
    dsimp only
    rw [if_pos hend]

/-! ## Parts -/

/-- A value, and those inside it. -/
inductive Part : Entry → Entry → Prop
  | self (e : Entry) : Part e e
  | element {a b : ℕ} {es : List Entry} {e v : Entry} : e ∈ es → Part e v → Part (.array a b es) v
  | member {a b : ℕ} {ms : List (Bytes × Entry)} {m : Bytes × Entry} {v : Entry} : m ∈ ms →
      Part m.2 v → Part (.object a b ms) v

theorem exists_of_forall₂ {α β : Type*} {R : α → β → Prop} {l : List α} {l' : List β} {a : α}
    (h : List.Forall₂ R l l') (ha : a ∈ l) : ∃ b ∈ l', R a b := by
  induction h with
  | nil => cases ha
  | @cons x y _ _ hxy _ ih =>
    rcases mem_cons.mp ha with rfl | ha
    · exact ⟨y, mem_cons_self, hxy⟩
    · obtain ⟨b, hb, hab⟩ := ih ha
      exact ⟨b, mem_cons_of_mem y hb, hab⟩

variable {j : Json}

/-- Every part of a document stands for a strict tree of its own. -/
theorem Part.exists_tree {e v : Entry} (h : Part e v) (hj : j.Strict) (hD : Denotes data e j.node) :
    ∃ j' : Json, j'.Strict ∧ Denotes data v j'.node ∧ j'.depth ≤ j.depth ∧ j'.count ≤ j.count := by
  induction h generalizing j with
  | self e => exact ⟨j, hj, hD, Nat.le_refl _, Nat.le_refl _⟩
  | element he _ ih =>
    generalize hn : j.node = n at hD
    cases hD with
    | array _ hes =>
      obtain ⟨m, hm, hDm⟩ := exists_of_forall₂ hes he
      obtain ⟨j₁, hj₁, rfl, hdepth, hcount⟩ := Json.exists_element hj hn hm
      obtain ⟨j₂, hj₂, hD₂, hdepth₂, hcount₂⟩ := ih hj₁ hDm
      exact ⟨j₂, hj₂, hD₂, Nat.le_trans hdepth₂ hdepth, Nat.le_trans hcount₂ hcount⟩
  | member hm _ ih =>
    generalize hn : j.node = n at hD
    cases hD with
    | object _ _ hms =>
      obtain ⟨x, hx, hDx⟩ := exists_of_forall₂ hms (mem_map_of_mem hm)
      obtain ⟨y, hy, rfl⟩ := mem_map.mp hx
      obtain ⟨j₁, hj₁, hnode, hdepth, hcount⟩ := Json.exists_member hj hn hy
      rw [← hnode] at hDx
      obtain ⟨j₂, hj₂, hD₂, hdepth₂, hcount₂⟩ := ih hj₁ hDx
      exact ⟨j₂, hj₂, hD₂, Nat.le_trans hdepth₂ hdepth, Nat.le_trans hcount₂ hcount⟩

/-- A value of a document is accepted as a document by itself. -/
theorem exists_parse_alone (hj : j.Strict) (hfits : j.Fits limits.effective)
    (hlen : (utf8 j.text).length ≤ limits.effective.maxBytes) :
    ∃ d, parseJSON (utf8 j.text) limits = .ok d ∧ Denotes (utf8 j.text) d.root j.node := by
  refine exists_parseJSON hlen (parseText_eq_ok_iff.mpr ⟨j, ?_, hj, hfits, rfl⟩)
  exact ⟨noSpace, noSpace, by simp [noSpace]⟩

/-- The `Text` of a string value is the meaning of its source. -/
theorem text_eq {v : Entry} (hj : j.Strict) (hD : Denotes data v j.node) (hv : v.kind = .string) :
    ∃ ps t, v.raw data = utf8 (quoted ps) ∧ meaning ps = some t ∧ v.text data = some (utf8 t) := by
  have hkind : j.node.kind = .string := hD.kind_eq.symm.trans hv
  have hraw := hD.raw_eq
  cases j with
  | emptyArray _ | array _ _ | emptyObject _ | object _ _ =>
    cases hkind
  | scalar s =>
    have hp := hj.1
    cases s with
    | null | boolean _ | number _ _ => cases hkind
    | string ps =>
      obtain ⟨t, ht⟩ := Option.isSome_iff_exists.mp hp
      have hraw : v.raw data = utf8 (quoted ps) := hraw
      refine ⟨ps, t, hraw, ht, ?_⟩
      rw [Entry.text, if_pos hv]
      dsimp only
      rw [hraw, quoted, inside_utf8]
      refine textLoop_eq ht _ ?_
      rw [utf8_ascii (by decide), utf8_append, length_cons, length_append]
      omega

/-! ## The parser is exact -/

/-- `ParseJSON` accepts an input exactly when it is the encoding of a text of the grammar whose
surrogates are paired and whose names are distinct, within the limits.  What it records of an
accepted input is the tree of that text; its values nest; the bytes of each, parsed alone, are the
same value; and the text of a string is its decoding. -/
theorem parseJSON_exact (data : Bytes) (limits : Limits) :
    ((∃ d, parseJSON data limits = .ok d) ↔
      data.length ≤ limits.effective.maxBytes ∧ ∃ t j, data = utf8 t ∧ IsText t j ∧ j.Paired ∧
        j.Distinct ∧ j.depth ≤ limits.effective.maxDepth ∧ j.count ≤ limits.effective.maxNodes) ∧
    ∀ d, parseJSON data limits = .ok d →
      (∃ t j, data = utf8 t ∧ IsText t j ∧ j.Paired ∧ j.Distinct ∧ Denotes data d.root j.node) ∧
      Nested d.root ∧ d.root.stop ≤ data.length ∧ ∀ v, Part d.root v →
        (∃ d' n, parseJSON (v.raw data) limits = .ok d' ∧ Denotes data v n ∧
          Denotes (v.raw data) d'.root n) ∧
        (v.kind = .string → ∃ ps t, v.raw data = utf8 (quoted ps) ∧ meaning ps = some t ∧
          v.text data = some (utf8 t)) := by
  refine ⟨⟨?_, ?_⟩, ?_⟩
  · rintro ⟨d, hd⟩
    obtain ⟨hlen, t, n, rfl, ht, -⟩ := parseJSON_eq_ok hd
    obtain ⟨j, htext, hj, hfits, -⟩ := parseText_eq_ok_iff.mp ht
    exact ⟨hlen, t, j, rfl, htext, hj.1, hj.2, hfits.1, hfits.2⟩
  · rintro ⟨hlen, t, j, rfl, htext, hp, hd, hdepth, hcount⟩
    obtain ⟨d, hparse, -⟩ := exists_parseJSON hlen
      (parseText_eq_ok_iff.mpr ⟨j, htext, ⟨hp, hd⟩, ⟨hdepth, hcount⟩, rfl⟩)
    exact ⟨d, hparse⟩
  · intro d hd
    obtain ⟨hlen, t, n, rfl, ht, hD, hnested, hstop⟩ := parseJSON_eq_ok hd
    obtain ⟨j, htext, hj, hfits, rfl⟩ := parseText_eq_ok_iff.mp ht
    refine ⟨⟨t, j, rfl, htext, hj.1, hj.2, hD⟩, hnested, hstop, fun v hv => ?_⟩
    obtain ⟨j', hj', hD', hdepth, hcount⟩ := hv.exists_tree hj hD
    refine ⟨?_, text_eq hj' hD'⟩
    have hraw : v.raw (utf8 t) = utf8 j'.text := by rw [hD'.raw_eq, Json.node_raw]
    have hshort : (utf8 j'.text).length ≤ (utf8 t).length := by
      rw [← hraw, Entry.raw, length_take, length_drop]
      omega
    obtain ⟨d', hparse, hD''⟩ := exists_parse_alone hj'
      ⟨Nat.le_trans hdepth hfits.1, Nat.le_trans hcount hfits.2⟩ (Nat.le_trans hshort hlen)
    exact ⟨d', j'.node, by rw [hraw]; exact hparse, hD', by rw [hraw]; exact hD''⟩

end Olp.Oif.Scan
