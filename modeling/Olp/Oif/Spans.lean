import Olp.Oif.Refinement

/-!
# Where values stand

The parser on bytes finds the values of the parser on characters, and records for each the bounds
of its text: the bytes between them are those of the text the value was written as (`Denotes`), and
the parts of a container stand inside it, in their order and apart (`Nested`).
-/

namespace Olp.Oif.Scan

open List

/-! ## Bounds -/

/-- Values that stand one after the other between two positions, with a byte after each. -/
def InOrder : ℕ → ℕ → List Entry → Prop
  | lo, hi, [] => lo ≤ hi
  | lo, hi, e :: es => lo ≤ e.start ∧ e.start < e.stop ∧ InOrder (e.stop + 1) hi es

/-- The parts of a value stand inside it, in order and apart. -/
inductive Nested : Entry → Prop
  | scalar {k : Kind} {a b : ℕ} : a < b → Nested (.scalar k a b)
  | array {a b : ℕ} {es : List Entry} : InOrder (a + 1) b es → (∀ e ∈ es, Nested e) →
      Nested (.array a b es)
  | object {a b : ℕ} {ms : List (Bytes × Entry)} : InOrder (a + 1) b (ms.map Prod.snd) →
      (∀ m ∈ ms, Nested m.2) → Nested (.object a b ms)

theorem InOrder.mono {lo lo' hi : ℕ} {es : List Entry} (h : InOrder lo hi es) (hlo : lo' ≤ lo) :
    InOrder lo' hi es := by
  cases es with
  | nil => exact Nat.le_trans hlo h
  | cons e es => exact ⟨Nat.le_trans hlo h.1, h.2⟩

/-- A value of the input is one of its text: the bytes between its bounds are the text it was
written as, and so for its parts. -/
inductive Denotes (data : Bytes) : Entry → Node → Prop
  | scalar {k : Kind} {a b : ℕ} {raw : List Char} : (Entry.scalar k a b).raw data = utf8 raw →
      Denotes data (.scalar k a b) (.scalar k raw)
  | array {a b : ℕ} {es : List Entry} {raw : List Char} {ns : List Node} :
      (Entry.array a b es).raw data = utf8 raw → List.Forall₂ (Denotes data) es ns →
      Denotes data (.array a b es) (.array raw ns)
  | object {a b : ℕ} {ms : List (Bytes × Entry)} {raw : List Char} {ns : List (List Char × Node)} :
      (Entry.object a b ms).raw data = utf8 raw →
      List.Forall₂ (fun m n => m.1 = utf8 n.1) ms ns →
      List.Forall₂ (Denotes data) (ms.map Prod.snd) (ns.map Prod.snd) →
      Denotes data (.object a b ms) (.object raw ns)

variable {e : Entry}

variable {data : Bytes}

/-- The span of an entry is the text of the node it stands for. -/
theorem Denotes.raw_eq {n : Node} (h : Denotes data e n) : e.raw data = utf8 n.raw := by
  cases h <;> assumption

theorem Denotes.kind_eq {n : Node} (h : Denotes data e n) : e.kind = n.kind := by
  cases h <;> rfl

/-! ## Positions -/

section Positions

variable (data)

def pos (t : List Char) : ℕ := data.length - (utf8 t).length

/-- Two cursors at the same place of the input. -/
structure Same (p : Pos) (s : Cursor) : Prop where
  rest : p.rest = utf8 s.rest
  nodes : p.nodes = s.nodes
  suffix : utf8 s.rest <:+ data

/-- A value that was read from `lo` on, and both cursors after it. -/
structure Found {α β : Type} (span : α → Entry) (D : α → β → Prop) (lo : ℕ) (x : α × Pos)
    (y : β × Cursor) : Prop where
  same : Same data x.2 y.2
  denotes : D x.1 y.1
  nested : Nested (span x.1)
  start : lo ≤ (span x.1).start
  nonempty : (span x.1).start < (span x.1).stop
  stop : (span x.1).stop = pos data y.2.rest

variable {data} {t w : List Char}

variable (h : utf8 (w ++ t) <:+ data)

include h

theorem pos_append : pos data t = pos data (w ++ t) + (utf8 w).length := by
  have := h.length_le
  rw [utf8_append, length_append] at this
  rw [pos, pos, utf8_append, length_append]
  omega

theorem suffix_right : utf8 t <:+ data := by
  rw [utf8_append] at h
  exact (suffix_append _ _).trans h

omit h in
theorem space_suffix (h : utf8 t <:+ data) :
    utf8 (Oif.space t) <:+ data ∧ pos data t ≤ pos data (Oif.space t) := by
  obtain ⟨w, -, ht⟩ := exists_blank t
  rw [ht] at h
  refine ⟨suffix_right h, ?_⟩
  rw [pos_append h, ← ht]
  exact Nat.le_add_right _ _

theorem slice_eq :
    (data.drop (pos data (w ++ t))).take (pos data t - pos data (w ++ t)) = utf8 w := by
  obtain ⟨pre, rfl⟩ := h
  have hpos : pos (pre ++ utf8 (w ++ t)) (w ++ t) = pre.length := by
    rw [pos, length_append]
    omega
  rw [pos_append (suffix_append _ _), Nat.add_sub_cancel_left, hpos, drop_left, utf8_append,
    take_left]

end Positions

/-! ## Containers -/

section Sequence

variable {α β : Type} {span : α → Entry} {D : α → β → Prop}
  {item : List α → Pos → Except Stop (α × Pos)}
  {item' : List β → Cursor → Except Fault (β × Cursor)} {close : Char} {unclosed : SourceCode}

/-- The items that were read after `done` from `lo` on, and both cursors after them. -/
def FoundAll (data : Bytes) (span : α → Entry) (D : α → β → Prop) (lo : ℕ) (done : List α)
    (done' : List β) (x : List α × Pos) (y : List β × Cursor) : Prop :=
  Same data x.2 y.2 ∧ ∃ as bs, x.1 = done ++ as ∧ y.1 = done' ++ bs ∧ List.Forall₂ D as bs ∧
    (∀ a ∈ as, Nested (span a)) ∧ InOrder lo (pos data y.2.rest) (as.map span)

/-- Items are read alike in the light of items that were. -/
def ItemFollows (data : Bytes) (span : α → Entry) (D : α → β → Prop)
    (item : List α → Pos → Except Stop (α × Pos))
    (item' : List β → Cursor → Except Fault (β × Cursor)) : Prop :=
  ∀ done done' p s, List.Forall₂ D done done' → Same data p s →
    Follows (Found data span D (pos data s.rest)) (item done p) (item' done' s)

theorem sequence_follows (hitem : ItemFollows data span D item item') (hclose : close.toNat < 128) :
    ∀ fuel done done' p s, List.Forall₂ D done done' → Same data p s →
      Follows (FoundAll data span D (pos data s.rest) done done')
        (sequence item close unclosed fuel done p)
        (Oif.sequence item' close unclosed fuel done' s) := by
  intro fuel
  induction fuel with
  | zero =>
    intro done done' p s _ _
    exact .error
  | succ fuel ih =>
    intro done done' p s hdone hs
    refine (hitem done done' p s hdone hs).bind ?_
    rintro ⟨a, q⟩ ⟨b, u⟩ - hfound
    obtain ⟨⟨hrest, hnodes, hsuffix⟩, hab, hnested, hstart, hlt, hstop⟩ := hfound
    dsimp only at hrest hnodes hsuffix hab hnested hstart hlt hstop ⊢
    obtain ⟨hspace, hle⟩ := space_suffix hsuffix
    rw [hrest, space_utf8]
    cases ht : Oif.space u.rest with
    | nil => exact .error
    | cons c t =>
      rw [ht] at hspace hle
      have hsuf : utf8 t <:+ data := suffix_right (w := [c]) hspace
      -- at least the byte of the comma or the bracket stands after the item
      have hpos : (span a).stop + 1 ≤ pos data t := by
        have hbyte : 0 < (utf8 [c]).length := length_le_utf8 [c]
        rw [hstop, pos_append (w := [c]) hspace, singleton_append]
        omega
      rw [take_utf8 hclose, take_utf8 (by decide), after, after]
      by_cases hc : c = close
      · simp only [if_pos hc, Option.map_some]
        refine .ok ⟨⟨rfl, hnodes, hsuf⟩, [a], [b], rfl, rfl, .cons hab .nil, ?_, ?_⟩
        · simpa using hnested
        · exact ⟨hstart, hlt, hpos⟩
      · by_cases hcomma : c = ','
        · simp only [if_neg hc, if_pos hcomma, Option.map_some, Option.map_none]
          have hmore := ih (done ++ [a]) (done' ++ [b]) ⟨utf8 t, q.nodes⟩ ⟨t, u.nodes⟩
            (rel_append hdone (.cons hab .nil)) ⟨rfl, hnodes, hsuf⟩
          refine hmore.mono ?_
          rintro x y - ⟨hsame, as, bs, hx, hy, hD, hall, horder⟩
          refine ⟨hsame, a :: as, b :: bs, by simp [hx], by simp [hy], .cons hab hD, ?_, ?_⟩
          · intro e he
            rcases mem_cons.mp he with rfl | he
            · exact hnested
            · exact hall e he
          · exact ⟨hstart, hlt, horder.mono hpos⟩
        · simp only [if_neg hc, if_neg hcomma, Option.map_none]
          exact .error

/-- The bounds on the numbers of items, in bytes and in characters, are both never met. -/
theorem container_follows (hitem : ItemFollows data span D item item') (hclose : close.toNat < 128)
    (hshort : ∀ done s a s', item' done s = .ok (a, s') → s'.rest.length ≤ s.rest.length)
    {p : Pos} {s : Cursor} (hs : Same data p s) :
    Follows (FoundAll data span D (pos data s.rest) [] []) (container item close unclosed p)
      (Oif.container item' close unclosed s) := by
  obtain ⟨hsuf, hle⟩ := space_suffix hs.suffix
  unfold container Oif.container
  dsimp only
  rw [hs.rest, space_utf8, take_utf8 hclose]
  have hseq : Follows (FoundAll data span D (pos data (Oif.space s.rest)) [] [])
      (sequence item close unclosed ((utf8 (Oif.space s.rest)).length + 1) []
        ⟨utf8 (Oif.space s.rest), p.nodes⟩)
      (Oif.sequence item' close unclosed ((utf8 (Oif.space s.rest)).length + 1) []
        ⟨Oif.space s.rest, s.nodes⟩) :=
    sequence_follows hitem hclose _ [] [] ⟨utf8 (Oif.space s.rest), p.nodes⟩
      ⟨Oif.space s.rest, s.nodes⟩ .nil ⟨rfl, hs.nodes, hsuf⟩
  have hmono : ∀ x y, Oif.sequence item' close unclosed ((Oif.space s.rest).length + 1) []
      ⟨Oif.space s.rest, s.nodes⟩ = .ok y →
        FoundAll data span D (pos data (Oif.space s.rest)) [] [] x y →
      FoundAll data span D (pos data s.rest) [] [] x y := by
    rintro x y - ⟨hsame, as, bs, hx, hy, hD, hall, horder⟩
    exact ⟨hsame, as, bs, hx, hy, hD, hall, horder.mono hle⟩
  have hfuel : Oif.sequence item' close unclosed ((utf8 (Oif.space s.rest)).length + 1) []
      ⟨Oif.space s.rest, s.nodes⟩ = Oif.sequence item' close unclosed
        ((Oif.space s.rest).length + 1) []
        ⟨Oif.space s.rest, s.nodes⟩ :=
    sequence_fuel hshort (Nat.lt_succ_of_le (length_le_utf8 _)) (Nat.lt_succ_self _)
  rw [hfuel] at hseq
  cases ht : Oif.space s.rest with
  | nil =>
    rw [ht] at hseq hmono
    exact hseq.mono hmono
  | cons c t =>
    rw [ht] at hseq hmono hsuf
    rw [after]
    by_cases hc : c = close
    · simp only [if_pos hc, Option.map_some]
      refine .ok ⟨⟨rfl, hs.nodes, suffix_right (w := [c]) hsuf⟩, [], [], rfl, rfl, .nil, ?_, ?_⟩
      · intro a ha
        cases ha
      · rw [ht] at hle
        refine Nat.le_trans hle ?_
        rw [pos_append (w := [c]) hsuf]
        exact Nat.le_add_right _ _
    · simp only [if_neg hc, Option.map_none]
      exact hseq.mono hmono

end Sequence

/-! ## Members -/

theorem backslash_mem_utf8 (t : List Char) : byte '\\' ∈ utf8 t ↔ '\\' ∈ t := by
  induction t with
  | nil => simp
  | cons c t ih =>
    rw [utf8_cons, mem_append, mem_cons, ih]
    refine or_congr_left ?_
    rcases encode_cases c with ⟨hc, h⟩ | ⟨hc, -, h⟩
    · rw [h, mem_singleton, byte_inj (by decide) hc]
    · refine iff_of_false (fun hmem => ?_) (ne_ascii hc (by decide)).symm
      have := h _ hmem
      exact absurd this (by decide)

theorem inside_utf8 (t : List Char) : ((utf8 ('"' :: (t ++ ['"']))).drop 1).dropLast = utf8 t := by
  rw [utf8_ascii (by decide), utf8_append, drop_succ_cons, drop_zero,
    utf8_ascii (by decide), utf8_nil, dropLast_concat]

theorem memberName_utf8 (ps : List Piece) :
    memberName (utf8 (quoted ps)) = utf8 (Oif.memberName (quoted ps)) := by
  have hname : ((quoted ps).drop 1).dropLast = ps.flatMap Piece.text := by
    rw [quoted, drop_succ_cons, drop_zero, dropLast_concat]
  unfold memberName Oif.memberName
  dsimp only
  rw [hname, quoted, inside_utf8, textOf_utf8]
  simp only [backslash_mem_utf8]
  split_ifs <;> rfl

theorem require_follows {P Q : Prop} [Decidable P] [Decidable Q] (h : P ↔ Q) (code : SourceCode)
    (s : Bytes) (t : List Char) :
    Follows (fun _ _ => True) (require P (code, s)) (require Q (code, t)) := by
  unfold require
  by_cases hp : P
  · rw [if_pos hp, if_pos (h.mp hp)]
    exact .ok trivial
  · rw [if_neg hp, if_neg (mt h.mpr hp)]
    exact .error

/-- A member and the member of the text that it is. -/
def DenotesMember (data : Bytes) (m : Bytes × Entry) (n : List Char × Node) : Prop :=
  m.1 = utf8 n.1 ∧ Denotes data m.2 n.2

/-- A part of the parser on bytes that finds the values of one on characters. -/
def FindsValues (data : Bytes) (child : Pos → Except Stop (Entry × Pos))
    (child' : Cursor → Except Fault (Node × Cursor)) : Prop :=
  ∀ p s, Same data p s →
    Follows (Found data id (Denotes data) (pos data s.rest)) (child p) (child' s)

theorem names_follow {done : List (Bytes × Entry)} {done' : List (List Char × Node)}
    (h : List.Forall₂ (DenotesMember data) done done') (name : List Char) :
    (∀ m ∈ done, m.1 ≠ utf8 name) ↔ ∀ m ∈ done', m.1 ≠ name := by
  induction h with
  | nil => simp
  | cons hab _ ih =>
    rw [forall_mem_cons, forall_mem_cons, ih, hab.1, ne_eq, utf8_injective.eq_iff]

theorem FindsValues.members {child : Pos → Except Stop (Entry × Pos)}
    {child' : Cursor → Except Fault (Node × Cursor)} (h : FindsValues data child child') :
    ItemFollows data Prod.snd (DenotesMember data) (member child) (Oif.member child') := by
  intro done done' p s hdone hs
  obtain ⟨hsuf, hle⟩ := space_suffix hs.suffix
  unfold member Oif.member
  dsimp only
  rw [hs.rest, space_utf8]
  refine (string_follows _).bind ?_
  rintro _ u hu rfl
  obtain ⟨ps, -, -, ht⟩ := string_eq_ok hu
  rw [ht] at hsuf hle ⊢
  have htake : (utf8 (quoted ps ++ u)).take ((utf8 (quoted ps ++ u)).length - (utf8 u).length) =
      utf8 (quoted ps) := by
    rw [utf8_append, length_append, Nat.add_sub_cancel, take_left]
  rw [htake, memberName_utf8, upTo_append]
  refine (require_follows (names_follow hdone _) _ _ _).bind ?_
  rintro _ _ - -
  obtain ⟨husuf, hule⟩ := space_suffix (suffix_right hsuf)
  rw [space_utf8, take_utf8 (by decide)]
  cases hv : Oif.space u with
  | nil => exact .error
  | cons c v =>
    rw [after]
    by_cases hc : c = ':'
    · simp only [if_pos hc, Option.map_some]
      rw [hv] at husuf hule
      have hvle : pos data s.rest ≤ pos data v := by
        rw [pos_append (w := [c]) husuf, singleton_append]
        rw [pos_append hsuf] at hule
        omega
      refine .bind
        (h ⟨utf8 v, p.nodes⟩ ⟨v, s.nodes⟩ ⟨rfl, hs.nodes, suffix_right (w := [c]) husuf⟩) ?_
      rintro ⟨e, q⟩ ⟨n, x⟩ - hfound
      exact .ok ⟨hfound.same, ⟨rfl, hfound.denotes⟩, hfound.nested,
        Nat.le_trans hvle hfound.start, hfound.nonempty, hfound.stop⟩
    · simp only [if_neg hc, Option.map_none]
      exact .error

/-! ## Values -/

theorem bounds_of_text {w r : List Char} (h : utf8 (w ++ r) <:+ data)
    (hstart : e.start = pos data (w ++ r)) (hstop : e.stop = pos data r) :
    e.raw data = utf8 w ∧ e.stop = e.start + (utf8 w).length := by
  rw [Entry.raw, hstart, hstop]
  exact ⟨slice_eq h, pos_append h⟩

theorem value_follows (data : Bytes) (m d : ℕ) :
    FindsValues data (value data.length m d) (Oif.value m d) := by
  induction d with
  | zero =>
    intro p s _
    exact .error
  | succ d ih =>
    intro p s hs
    obtain ⟨hsuf, hle⟩ := space_suffix hs.suffix
    -- the text of the value is known once the parser on characters has read it
    suffices h : Follows
        (fun (x : Entry × Pos) (y : Node × Cursor) => Oif.space s.rest = y.1.raw ++ y.2.rest →
          y.1.raw ≠ [] → Found data id (Denotes data) (pos data s.rest) x y)
        (value data.length m (d + 1) p) (Oif.value m (d + 1) s) by
      refine h.mono fun x y hy hfound => ?_
      obtain ⟨htext, hvalue⟩ := value_local m (d + 1) s y.1 y.2 hy
      refine hfound htext fun hnil => ?_
      obtain ⟨_, _, hopens, -⟩ := hvalue.opens
      rw [hnil] at hopens
      cases hopens
    rw [value, Oif.value, hs.nodes, hs.rest, space_utf8]
    split
    · exact .error
    · cases ht : Oif.space s.rest with
      | nil => exact .error
      | cons c t =>
        rw [ht] at hsuf hle
        obtain ⟨b, r, hb⟩ := exists_cons_of_length_pos
          (Nat.lt_of_lt_of_le (Nat.succ_pos _) (length_le_utf8 (c :: t)))
        have hstart : data.length - (b :: r).length = pos data (c :: t) := by rw [pos, hb]
        have hnext : Same data ⟨utf8 t, s.nodes + 1⟩ ⟨t, s.nodes + 1⟩ :=
          ⟨rfl, rfl, suffix_right (w := [c]) hsuf⟩
        have hinside : pos data (c :: t) + 1 ≤ pos data t := by
          rw [pos_append (w := [c]) hsuf]
          exact Nat.add_le_add_left (length_le_utf8 [c]) _
        -- a value whose bounds were recorded
        have found : ∀ {e : Entry} {n : Node} {q : Pos} {u : Cursor}, Same data q u →
            e.start = pos data (c :: t) → e.stop = data.length - q.rest.length →
            (e.raw data = utf8 n.raw → Denotes data e n) → (e.start < e.stop → Nested e) →
            c :: t = n.raw ++ u.rest → n.raw ≠ [] →
              Found data id (Denotes data) (pos data s.rest) (e, q) (n, u) := by
          intro e n q u hsame he he' hD hnested htext hne
          rw [hsame.rest] at he'
          rw [htext] at hsuf he hle
          obtain ⟨hraw, hlen⟩ := bounds_of_text hsuf he he'
          have hlt : e.start < e.stop := by
            have := Nat.lt_of_lt_of_le (length_pos_iff.mpr hne) (length_le_utf8 n.raw)
            omega
          exact ⟨hsame, hD hraw, hnested hlt, he ▸ hle, hlt, he'⟩
        rw [hb]
        simp only [head_eq_byte hb (show '\x7b'.toNat < 128 by decide),
          head_eq_byte hb (show '['.toNat < 128 by decide)]
        by_cases hobject : c = '\x7b'
        · subst hobject
          cases hb
          refine (container_follows ih.members (by decide) (fun _ _ _ _ => member_shortens)
            hnext).bind ?_
          rintro ⟨_, q⟩ ⟨_, u⟩ - ⟨hsame, ms, ns, rfl, rfl, hD, hnested, horder⟩
          refine .ok
            (found hsame hstart rfl (fun hraw => .object hraw ?_ ?_) fun _ => .object ?_ ?_)
          · exact hD.imp fun _ _ h => h.1
          · exact List.forall₂_map_left_iff.mpr (List.forall₂_map_right_iff.mpr
              (hD.imp fun _ _ h => h.2))
          · rw [hstart, hsame.rest]
            exact horder.mono hinside
          · exact hnested
        · by_cases harray : c = '['
          · subst harray
            cases hb
            have hitem : ItemFollows data id (Denotes data) (fun _ => value data.length m d)
                fun _ => Oif.value m d := fun _ _ p s _ => ih p s
            refine (container_follows hitem (by decide) (fun _ _ _ _ => value_shortens)
              hnext).bind ?_
            rintro ⟨_, q⟩ ⟨_, u⟩ - ⟨hsame, es, ns, rfl, rfl, hD, hnested, horder⟩
            refine .ok (found hsame hstart rfl (fun hraw => .array hraw hD) fun _ =>
              .array ?_ hnested)
            rw [map_id] at horder
            rw [hstart, hsame.rest]
            exact horder.mono hinside
          · simp only [if_neg hobject, if_neg harray]
            refine (scalar_follows hb).bind ?_
            rintro ⟨k, r'⟩ ⟨k', u⟩ hscalar ⟨hk, hr⟩
            dsimp only at hk hr
            subst hk hr
            obtain ⟨w, -, -, hw⟩ := scalar_eq_ok hscalar
            rw [hw] at hsuf
            exact .ok (found ⟨rfl, rfl, suffix_right hsuf⟩ hstart rfl (fun hraw => .scalar hraw)
              fun hlt => .scalar hlt)

end Olp.Oif.Scan
