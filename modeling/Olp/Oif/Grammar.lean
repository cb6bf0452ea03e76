import Olp.Oif.Projection

/-!
# The grammar of JSON

The values of JSON as concrete syntax trees.  A tree holds every character it is written with, so
that the texts of the grammar are the texts of the trees, and what is asked of a text beyond the
grammar is asked of its tree: that no surrogate is unpaired, that the names of an object are
distinct once they are decoded, and how deep and how many its values are.

The parser reads a tree from its text and stops only at a limit (`Json.yields`), and what it has
read is a tree (`value_sound`).
-/

namespace Olp.Oif

open List

/-! ## Trees -/

abbrev Ws := { w : List Char // Blank w }

mutual

/-- A value.  White space follows the first bracket of a container. -/
inductive Json where
  | scalar (s : Scalar)
  | emptyArray (w : Ws)
  | array (w : Ws) (es : Elements)
  | emptyObject (w : Ws)
  | object (w : Ws) (ms : Members)

/-- The elements of an array, with white space around the commas and before the last bracket. -/
inductive Elements where
  | last (v : Json) (w : Ws)
  | more (v : Json) (w w' : Ws) (es : Elements)

/-- The members of an object, with white space also around the colons. -/
inductive Members where
  | last (name : List Piece) (w w' : Ws) (v : Json) (after : Ws)
  | more (name : List Piece) (w w' : Ws) (v : Json) (after before : Ws) (ms : Members)

end

mutual

def Json.text : Json → List Char
  | .scalar s => s.text
  | .emptyArray w => '[' :: (w.1 ++ [']'])
  | .array w es => '[' :: (w.1 ++ (es.text ++ [']']))
  | .emptyObject w => '\x7b' :: (w.1 ++ ['\x7d'])
  | .object w ms => '\x7b' :: (w.1 ++ (ms.text ++ ['\x7d']))

def Elements.text : Elements → List Char
  | .last v w => v.text ++ w.1
  | .more v w w' es => v.text ++ (w.1 ++ ',' :: (w'.1 ++ es.text))

def Members.text : Members → List Char
  | .last name w w' v after => quoted name ++ (w.1 ++ ':' :: (w'.1 ++ (v.text ++ after.1)))
  | .more name w w' v after before ms =>
    quoted name ++ (w.1 ++ ':' :: (w'.1 ++ (v.text ++ (after.1 ++ ',' :: (before.1 ++ ms.text)))))

end

def nameOf (name : List Piece) : List Char := (meaning name).getD []

mutual

/-- The value that a tree is the text of. -/
def Json.node : Json → Node
  | .scalar s => .scalar s.kind s.text
  | .emptyArray w => .array (Json.emptyArray w).text []
  | .array w es => .array (Json.array w es).text es.nodes
  | .emptyObject w => .object (Json.emptyObject w).text []
  | .object w ms => .object (Json.object w ms).text ms.nodes

def Elements.nodes : Elements → List Node
  | .last v _ => [v.node]
  | .more v _ _ es => v.node :: es.nodes

def Members.nodes : Members → List (List Char × Node)
  | .last name _ _ v _ => [(nameOf name, v.node)]
  | .more name _ _ v _ _ ms => (nameOf name, v.node) :: ms.nodes

end

mutual

/-- No surrogate is unpaired, in a string or in a name. -/
def Json.Paired : Json → Prop
  | .scalar s => s.Paired
  | .emptyArray _ | .emptyObject _ => True
  | .array _ es => es.Paired
  | .object _ ms => ms.Paired

def Elements.Paired : Elements → Prop
  | .last v _ => v.Paired
  | .more v _ _ es => v.Paired ∧ es.Paired

def Members.Paired : Members → Prop
  | .last name _ _ v _ => (meaning name).isSome = true ∧ v.Paired
  | .more name _ _ v _ _ ms => (meaning name).isSome = true ∧ v.Paired ∧ ms.Paired

end

mutual

/-- No two members of one object have the same decoded name. -/
def Json.Distinct : Json → Prop
  | .scalar _ | .emptyArray _ | .emptyObject _ => True
  | .array _ es => es.Distinct
  | .object _ ms => (ms.nodes.map Prod.fst).Nodup ∧ ms.Distinct

def Elements.Distinct : Elements → Prop
  | .last v _ => v.Distinct
  | .more v _ _ es => v.Distinct ∧ es.Distinct

def Members.Distinct : Members → Prop
  | .last _ _ _ v _ => v.Distinct
  | .more _ _ _ v _ _ ms => v.Distinct ∧ ms.Distinct

end

mutual

/-- The number of containers around the deepest value. -/
def Json.depth : Json → ℕ
  | .scalar _ | .emptyArray _ | .emptyObject _ => 0
  | .array _ es => es.depth + 1
  | .object _ ms => ms.depth + 1

def Elements.depth : Elements → ℕ
  | .last v _ => v.depth
  | .more v _ _ es => max v.depth es.depth

def Members.depth : Members → ℕ
  | .last _ _ _ v _ => v.depth
  | .more _ _ _ v _ _ ms => max v.depth ms.depth

end

mutual

/-- The number of values. -/
def Json.count : Json → ℕ
  | .scalar _ | .emptyArray _ | .emptyObject _ => 1
  | .array _ es => es.count + 1
  | .object _ ms => ms.count + 1

def Elements.count : Elements → ℕ
  | .last v _ => v.count
  | .more v _ _ es => v.count + es.count

def Members.count : Members → ℕ
  | .last _ _ _ v _ => v.count
  | .more _ _ _ v _ _ ms => v.count + ms.count

end

/-! ## Reading what is there -/

def IsLimit (e : Fault) : Prop := e.1 = .depthLimit ∨ e.1 = .nodeLimit

section Yields

variable {α β : Type} {P Q : Prop} {x : Except Fault α} {f : α → Except Fault β} {a : α} {b : β}

/-- A part of the parser reads `a` within the limits, and stops at a limit otherwise. -/
structure Yields (within : Prop) (x : Except Fault α) (a : α) : Prop where
  ok : within → x = .ok a
  stops : ¬within → ∃ e, IsLimit e ∧ x = .error e

theorem Yields.bind (h : Yields P x a) (hf : P → Yields Q (f a) b) :
    Yields (P ∧ Q) (x >>= f) b := by
  by_cases hp : P
  · have hx : (x >>= f) = f a := by rw [h.ok hp]; rfl
    rw [hx]
    exact ⟨fun hpq => (hf hp).ok hpq.2, fun hpq => (hf hp).stops fun hq => hpq ⟨hp, hq⟩⟩
  · obtain ⟨e, he, hx⟩ := h.stops hp
    refine ⟨fun hpq => absurd hpq.1 hp, fun _ => ⟨e, he, ?_⟩⟩
    rw [hx]
    rfl

theorem Yields.congr (h : Yields P x a) (hpq : P ↔ Q) : Yields Q x a :=
  ⟨fun hq => h.ok (hpq.mpr hq), fun hq => h.stops fun hp => hq (hpq.mp hp)⟩

theorem yields_of_eq (hp : P) (h : x = .ok a) : Yields P x a := ⟨fun _ => h, fun hn => absurd hp hn⟩

theorem yields_of_limit {e : Fault} (hp : ¬P) (he : IsLimit e) (h : x = .error e) : Yields P x a :=
  ⟨fun h => absurd h hp, fun _ => ⟨e, he, h⟩⟩

theorem Yields.then (h : Yields P x a) (hf : f a = .ok b) : Yields P (x >>= f) b :=
  (h.bind (Q := True) fun _ => yields_of_eq trivial hf).congr (and_iff_left trivial)

end Yields

/-! ### Containers -/

section Sequence

variable {α : Type} {item : List α → Cursor → Except Fault (α × Cursor)} {close : Char}
  {unclosed : SourceCode} {done : List α} {a : α} {s : Cursor} {u t rest : List Char} {k fuel : ℕ}
  {P Q : Prop}

theorem sequence_last (h : Yields P (item done s) (a, ⟨u, k⟩)) (hu : space u = close :: rest) :
    Yields P (sequence item close unclosed (fuel + 1) done s) (done ++ [a], ⟨rest, k⟩) := by
  refine h.then ?_
  dsimp only
  rw [hu]
  simp

theorem sequence_more {r : List α × Cursor} (h : Yields P (item done s) (a, ⟨u, k⟩))
    (hu : space u = ',' :: t) (hclose : close ≠ ',')
    (hrest : P → Yields Q (sequence item close unclosed fuel (done ++ [a]) ⟨t, k⟩) r) :
    Yields (P ∧ Q) (sequence item close unclosed (fuel + 1) done s) r := by
  refine h.bind fun hp => ?_
  dsimp only
  rw [hu]
  simp only [if_neg hclose.symm, if_pos]
  exact hrest hp

variable {w : List Char}

theorem container_nil (hw : Blank w) (hc : isSpace close = false) :
    container item close unclosed ⟨w ++ close :: rest, k⟩ = .ok ([], ⟨rest, k⟩) := by
  unfold container
  rw [space_append hw, space_cons hc]
  simp

theorem container_cons {c : Char} (hw : Blank w) (hc : isSpace c = false) (hne : c ≠ close) :
    container item close unclosed ⟨w ++ c :: t, k⟩ =
      sequence item close unclosed ((c :: t).length + 1) [] ⟨c :: t, k⟩ := by
  unfold container
  rw [space_append hw, space_cons hc]
  simp only [if_neg hne]

theorem container_yields {body : List Char} {r : List α × Cursor}
    (hbody : ∃ c u, body = c :: u ∧ isSpace c = false ∧ c ≠ close) (hw : Blank w)
    (h : ∀ fuel, body.length < fuel →
      Yields P (sequence item close unclosed fuel [] ⟨body ++ close :: rest, k⟩) r) :
    Yields P (container item close unclosed ⟨w ++ (body ++ [close]) ++ rest, k⟩) r := by
  obtain ⟨c, u, rfl, hc, hne⟩ := hbody
  have htext : w ++ (c :: u ++ [close]) ++ rest = w ++ c :: (u ++ close :: rest) := by simp
  rw [htext, container_cons hw hc hne]
  refine h _ ?_
  simp only [length_cons, length_append]
  omega

end Sequence

/-! ### Values -/

section Value

variable {m d nodes k : ℕ} {w t rest : List Char} {P : Prop}

theorem value_limits {r : Node × Cursor} {s : Cursor}
    (h : s.nodes < m → Yields P (value m (d + 1) s) r) :
    Yields (s.nodes < m ∧ P) (value m (d + 1) s) r := by
  by_cases hm : s.nodes < m
  · exact (h hm).congr (by simp [hm])
  · refine yields_of_limit (fun h => hm h.1) (e := (.nodeLimit, space s.rest)) (.inr rfl) ?_
    rw [value, if_pos (Nat.le_of_not_lt hm)]

theorem value_scalar {v : Scalar} (hv : v.Paired) (hw : Blank w) (hr : Delimited rest)
    (hm : nodes < m) : value m (d + 1) ⟨w ++ (v.text ++ rest), nodes⟩ =
      .ok (.scalar v.kind v.text, ⟨rest, nodes + 1⟩) := by
  obtain ⟨c, u, hu, ⟨hspace, hobject, harray, -⟩, hscalar⟩ := hv.takes
  rw [hu, value, if_neg (Nat.not_le_of_lt hm), cons_append, space_append hw, space_cons hspace]
  simp only [if_neg hobject, if_neg harray]
  rw [← cons_append, hscalar rest hr, bind_eq_ok]
  refine ⟨_, rfl, ?_⟩
  rw [upTo_append]
  rfl

theorem value_array {ns : List Node} (hw : Blank w)
    (h : Yields P (container (fun _ => value m d) ']' .expectedArrayEnd ⟨t ++ rest, nodes + 1⟩)
      (ns, ⟨rest, k⟩)) :
    Yields (nodes < m ∧ P) (value m (d + 1) ⟨w ++ ('[' :: t ++ rest), nodes⟩)
      (.array ('[' :: t) ns, ⟨rest, k⟩) := by
  refine value_limits (s := ⟨_, nodes⟩) fun hm => ?_
  rw [value, if_neg (Nat.not_le_of_lt hm), space_append hw, cons_append, space_cons (by decide)]
  simp only [if_neg (show ¬ '[' = '\x7b' by decide), if_pos]
  refine h.then ?_
  rw [← cons_append, upTo_append]
  rfl

theorem value_object {ms : List (List Char × Node)} (hw : Blank w)
    (h : Yields P (container (member (value m d)) '\x7d' .expectedObjectEnd ⟨t ++ rest, nodes + 1⟩)
      (ms, ⟨rest, k⟩)) :
    Yields (nodes < m ∧ P) (value m (d + 1) ⟨w ++ ('\x7b' :: t ++ rest), nodes⟩)
      (.object ('\x7b' :: t) ms, ⟨rest, k⟩) := by
  refine value_limits (s := ⟨_, nodes⟩) fun hm => ?_
  rw [value, if_neg (Nat.not_le_of_lt hm), space_append hw, cons_append, space_cons (by decide)]
  simp only [if_pos]
  refine h.then ?_
  rw [← cons_append, upTo_append]
  rfl

theorem member_yields {child : Cursor → Except Fault (Node × Cursor)}
    {done : List (List Char × Node)} {name : List Piece} {v : Node} {s : Cursor} {w' : List Char}
    (hname : (meaning name).isSome = true) (hnew : ∀ m ∈ done, m.1 ≠ nameOf name) (hw : Blank w)
    (hw' : Blank w') (h : Yields P (child ⟨t, nodes⟩) (v, s)) :
    Yields P (member child done ⟨w ++ (quoted name ++ (w' ++ ':' :: t)), nodes⟩)
      ((nameOf name, v), s) := by
  obtain ⟨n, hn⟩ := Option.isSome_iff_exists.mp hname
  have hspace : space (w ++ (quoted name ++ (w' ++ ':' :: t))) =
      quoted name ++ (w' ++ ':' :: t) := by
    rw [space_append hw]
    exact space_cons (by decide)
  have heq : memberName (quoted name) = nameOf name := by
    rw [memberName_quoted hn, nameOf, hn]
    rfl
  unfold member
  dsimp only
  rw [hspace, quoted_takes hn _ trivial]
  dsimp only [bind, Except.bind]
  rw [upTo_append, heq, require, if_pos hnew, space_append hw', space_cons (by decide)]
  exact h.then rfl

end Value

/-! ### Trees -/

variable {j : Json}

theorem Json.exists_head (hp : j.Paired) :
    ∃ c u, j.text = c :: u ∧ isSpace c = false ∧ c ≠ ']' := by
  cases j with
  | scalar s =>
    obtain ⟨c, u, hu, hc, -⟩ := Scalar.Paired.takes (s := s) (by simpa [Json.Paired] using hp)
    exact ⟨c, u, by rw [Json.text, hu], hc.1, hc.2.2.2⟩
  | emptyArray _ | array _ _ | emptyObject _ | object _ _ =>
    exact ⟨_, _, rfl, by decide, by decide⟩

theorem Elements.exists_head {es : Elements} (hp : es.Paired) :
    ∃ c u, es.text = c :: u ∧ isSpace c = false ∧ c ≠ ']' := by
  cases es with
  | last v w | more v w w' es =>
    obtain ⟨c, u, hu, hc⟩ := Json.exists_head (j := v) (by
      simp only [Elements.Paired] at hp
      tauto)
    rw [Elements.text, hu]
    exact ⟨c, _, rfl, hc⟩

theorem Members.exists_head (ms : Members) : ∃ u, ms.text = '"' :: u := by
  cases ms <;> exact ⟨_, rfl⟩

theorem delimited_cons {w t : List Char} {c : Char} (hw : Blank w) (hc : goesOn c = false) :
    Delimited (w ++ c :: t) := blank_delimited hw (avoids_cons.mpr hc)

theorem names_ne {done ms : List (List Char × Node)} {name : List Char} {v : Node}
    (h : ((done ++ (name, v) :: ms).map Prod.fst).Nodup) : ∀ m ∈ done, m.1 ≠ name := by
  rw [map_append, nodup_append] at h
  intro m hm
  exact h.2.2 m.1 (mem_map_of_mem hm) name (by simp)

mutual

/-- A tree is read from its text. -/
theorem Json.yields (m : ℕ) :
    ∀ (j : Json) (d nodes : ℕ) (w rest : List Char), j.Paired → j.Distinct →
    Blank w → Delimited rest →
    Yields (j.depth < d ∧ nodes + j.count ≤ m) (value m d ⟨w ++ (j.text ++ rest), nodes⟩)
      (j.node, ⟨rest, nodes + j.count⟩)
  | j, 0, nodes, w, rest, _, _, _, _ =>
    yields_of_limit (fun h => Nat.not_lt_zero _ h.1)
      (e := (.depthLimit, space (w ++ (j.text ++ rest))))
      (.inl rfl) rfl
  | .scalar v, d + 1, nodes, w, rest, hp, _, hw, hr => by
    rw [Json.Paired] at hp
    rw [Json.text, Json.node, Json.count, Json.depth]
    exact (value_limits fun hm => yields_of_eq trivial (value_scalar hp hw hr hm)).congr (by grind)
  | .emptyArray w', d + 1, nodes, w, rest, _, _, hw, _ => by
    rw [Json.node, Json.text, Json.count, Json.depth]
    have h : container (fun _ => value m d) ']' .expectedArrayEnd
        ⟨(w'.1 ++ [']']) ++ rest, nodes + 1⟩ = .ok ([], ⟨rest, nodes + 1⟩) := by
      rw [append_assoc]
      exact container_nil w'.2 (by decide)
    exact (value_array hw (yields_of_eq trivial h)).congr (by grind)
  | .array w' es, d + 1, nodes, w, rest, hp, hd, hw, _ => by
    rw [Json.node, Json.text, Json.count, Json.depth]
    rw [Nat.add_comm es.count 1, ← Nat.add_assoc]
    refine (value_array hw (container_yields (Elements.exists_head hp) w'.2 fun fuel hf =>
      Elements.yields m es d (nodes + 1) fuel [] [] rest hp hd (fun _ h => nomatch h) hf)).congr ?_
    omega
  | .emptyObject w', d + 1, nodes, w, rest, _, _, hw, _ => by
    rw [Json.node, Json.text, Json.count, Json.depth]
    have h : container (member (value m d)) '\x7d' .expectedObjectEnd
        ⟨(w'.1 ++ ['\x7d']) ++ rest, nodes + 1⟩ = .ok ([], ⟨rest, nodes + 1⟩) := by
      rw [append_assoc]
      exact container_nil w'.2 (by decide)
    exact (value_object hw (yields_of_eq trivial h)).congr (by grind)
  | .object w' ms, d + 1, nodes, w, rest, hp, hd, hw, _ => by
    rw [Json.node, Json.text, Json.count, Json.depth]
    obtain ⟨u, hu⟩ := ms.exists_head
    have hhead : ∃ c u, ms.text = c :: u ∧ isSpace c = false ∧ c ≠ '\x7d' :=
      ⟨'"', u, hu, by decide, by decide⟩
    rw [Nat.add_comm ms.count 1, ← Nat.add_assoc]
    refine (value_object hw (container_yields hhead w'.2 fun fuel hf =>
      Members.yields m ms d (nodes + 1) fuel [] [] rest hp hd.2 hd.1
        (fun _ h => nomatch h) hf)).congr ?_
    omega

theorem Elements.yields (m : ℕ) : ∀ (es : Elements) (d nodes fuel : ℕ) (done : List Node)
    (w rest : List Char), es.Paired → es.Distinct → Blank w → es.text.length < fuel →
    Yields (es.depth < d ∧ nodes + es.count ≤ m)
      (sequence (fun _ => value m d) ']' .expectedArrayEnd fuel done
        ⟨w ++ (es.text ++ ']' :: rest), nodes⟩)
      (done ++ es.nodes, ⟨rest, nodes + es.count⟩)
  | .last v w', d, nodes, fuel + 1, done, w, rest, hp, hd, hw, _ => by
    rw [Elements.Paired] at hp
    rw [Elements.Distinct] at hd
    rw [Elements.nodes, Elements.count, Elements.depth, Elements.text, List.append_assoc]
    refine sequence_last (Json.yields m v d nodes w _ hp hd hw (delimited_cons w'.2 (by decide))) ?_
    rw [space_append w'.2, space_cons (by decide)]
  | .more v w' w'' es, d, nodes, fuel + 1, done, w, rest, hp, hd, hw, hf => by
    rw [Elements.Paired] at hp
    rw [Elements.Distinct] at hd
    rw [Elements.text] at hf
    have hlen : es.text.length < fuel := by
      simp only [length_append, length_cons] at hf
      omega
    have htext : (Elements.more v w' w'' es).text ++ ']' :: rest =
        v.text ++ (w'.1 ++ ',' :: (w''.1 ++ (es.text ++ ']' :: rest))) := by
      simp [Elements.text]
    rw [Elements.nodes, Elements.count, Elements.depth, htext, ← Nat.add_assoc, append_cons done]
    refine (sequence_more
      (Json.yields m v d nodes w _ hp.1 hd.1 hw (delimited_cons w'.2 (by decide)))
      (by rw [space_append w'.2, space_cons (by decide)]) (by decide) fun _ =>
      Elements.yields m es d (nodes + v.count) fuel _ w''.1 rest hp.2 hd.2 w''.2 hlen).congr ?_
    omega

theorem Members.yields (m : ℕ) :
    ∀ (ms : Members) (d nodes fuel : ℕ) (done : List (List Char × Node))
    (w rest : List Char), ms.Paired → ms.Distinct → ((done ++ ms.nodes).map Prod.fst).Nodup →
    Blank w → ms.text.length < fuel →
    Yields (ms.depth < d ∧ nodes + ms.count ≤ m)
      (sequence (member (value m d)) '\x7d' .expectedObjectEnd fuel done
        ⟨w ++ (ms.text ++ '\x7d' :: rest), nodes⟩)
      (done ++ ms.nodes, ⟨rest, nodes + ms.count⟩)
  | .last name w₁ w₂ v after, d, nodes, fuel + 1, done, w, rest, hp, hd, hn, hw, _ => by
    rw [Members.Paired] at hp
    rw [Members.Distinct] at hd
    rw [Members.nodes] at hn
    have htext : (Members.last name w₁ w₂ v after).text ++ '\x7d' :: rest =
        quoted name ++ (w₁.1 ++ ':' :: (w₂.1 ++ (v.text ++ (after.1 ++ '\x7d' :: rest)))) := by
      simp [Members.text]
    rw [Members.nodes, Members.count, Members.depth, htext]
    refine sequence_last (member_yields hp.1 (names_ne hn) hw w₁.2
      (Json.yields m v d nodes w₂.1 _ hp.2 hd w₂.2 (delimited_cons after.2 (by decide)))) ?_
    rw [space_append after.2, space_cons (by decide)]
  | .more name w₁ w₂ v after before ms, d, nodes, fuel + 1, done, w, rest, hp, hd, hn, hw, hf => by
    rw [Members.text] at hf
    have hlen : ms.text.length < fuel := by
      simp only [length_append, length_cons] at hf
      omega
    have htext : (Members.more name w₁ w₂ v after before ms).text ++ '\x7d' :: rest =
        quoted name ++ (w₁.1 ++ ':' :: (w₂.1 ++ (v.text ++
          (after.1 ++ ',' :: (before.1 ++ (ms.text ++ '\x7d' :: rest)))))) := by
      simp [Members.text]
    rw [Members.nodes, Members.count, Members.depth, htext, ← Nat.add_assoc, append_cons done]
    refine (sequence_more (member_yields hp.1 (names_ne hn) hw w₁.2
      (Json.yields m v d nodes w₂.1 _ hp.2.1 hd.1 w₂.2 (delimited_cons after.2 (by decide))))
      (by rw [space_append after.2, space_cons (by decide)]) (by decide) fun _ =>
      Members.yields m ms d (nodes + v.count) fuel _ before.1 rest hp.2.2 hd.2
        (by rwa [← append_cons]) before.2 hlen).congr ?_
    omega

end

/-! ## What was read is a tree -/

def Json.Strict (j : Json) : Prop := j.Paired ∧ j.Distinct

theorem exists_ws (t : List Char) : ∃ w : Ws, t = w.1 ++ space t := by
  obtain ⟨w, hw, ht⟩ := exists_blank t
  exact ⟨⟨w, hw⟩, ht⟩

def Ws.join (w v : Ws) : Ws := ⟨w.1 ++ v.1, List.forall_mem_append.mpr ⟨w.2, v.2⟩⟩

def noSpace : Ws := ⟨[], fun _ h => absurd h List.not_mem_nil⟩

/-- The part of the parser that reads values reads trees. -/
def ReadsTrees (child : Cursor → Except Fault (Node × Cursor)) : Prop :=
  ∀ s n s', child s = .ok (n, s') →
    ∃ (w : Ws) (j : Json), j.Strict ∧ j.node = n ∧ s.rest = w.1 ++ (j.text ++ s'.rest)

variable {child : Cursor → Except Fault (Node × Cursor)}

theorem ReadsTrees.elements (h : ReadsTrees child) {unclosed : SourceCode} :
    ∀ {fuel done s l s'}, sequence (fun _ => child) ']' unclosed fuel done s = .ok (l, s') →
      ∃ (w : Ws) (es : Elements), es.Paired ∧ es.Distinct ∧ l = done ++ es.nodes ∧
        s.rest = w.1 ++ (es.text ++ ']' :: s'.rest) := by
  intro fuel
  induction fuel with
  | zero =>
    intro done s l s' hs
    cases hs
  | succ f ih =>
    intro done s l s' hs
    obtain ⟨_, n, u, hf, hn, hend⟩ := sequence_eq_ok hs
    obtain rfl := Nat.succ.inj hf
    obtain ⟨w, j, hj, rfl, hrest⟩ := h s n u hn
    obtain ⟨after, hafter⟩ := exists_ws u.rest
    rcases hend with ⟨hclose, rfl⟩ | ⟨t, hcomma, -, hmore⟩
    · refine ⟨w, .last j after, ?_, ?_, rfl, ?_⟩
      · rw [Elements.Paired]; exact hj.1
      · rw [Elements.Distinct]; exact hj.2
      · rw [hrest, hafter, hclose, Elements.text, append_assoc]
    · obtain ⟨before, es, hp, hd, rfl, ht⟩ := ih hmore
      refine ⟨w, .more j after before es, ?_, ?_, ?_, ?_⟩
      · rw [Elements.Paired]; exact ⟨hj.1, hp⟩
      · rw [Elements.Distinct]; exact ⟨hj.2, hd⟩
      · rw [Elements.nodes, append_assoc, singleton_append]
      · dsimp only at ht
        rw [hrest, hafter, hcomma, ht, Elements.text]
        simp

theorem ReadsTrees.members (h : ReadsTrees child) {unclosed : SourceCode} :
    ∀ {fuel done s l s'}, sequence (member child) '\x7d' unclosed fuel done s = .ok (l, s') →
      ∃ (w : Ws) (ms : Members), ms.Paired ∧ ms.Distinct ∧ l = done ++ ms.nodes ∧
        s.rest = w.1 ++ (ms.text ++ '\x7d' :: s'.rest) := by
  intro fuel
  induction fuel with
  | zero =>
    intro done s l s' hs
    cases hs
  | succ f ih =>
    intro done s l s' hs
    obtain ⟨_, ⟨key, n⟩, u, hf, hn, hend⟩ := sequence_eq_ok hs
    obtain rfl := Nat.succ.inj hf
    obtain ⟨v, x, hstring, hname, hcolon, hchild⟩ := member_eq_ok hn
    obtain ⟨name, t, hmeaning, hquoted⟩ := string_eq_ok hstring
    obtain ⟨w₂, j, hj, rfl, hrest⟩ := h _ n u hchild
    obtain ⟨w, hw⟩ := exists_ws s.rest
    obtain ⟨w₁, hw₁⟩ := exists_ws v
    obtain ⟨after, hafter⟩ := exists_ws u.rest
    obtain rfl : key = nameOf name := by
      rw [hquoted, upTo_append, memberName_quoted hmeaning] at hname
      rw [nameOf, hmeaning]
      exact hname
    have hsome : (meaning name).isSome = true := by rw [hmeaning]; rfl
    have htext :
        s.rest = w.1 ++ (quoted name ++ (w₁.1 ++ ':' :: (w₂.1 ++ (j.text ++ u.rest)))) := by
      dsimp only at hrest
      rw [hw, hquoted, hw₁, hcolon, hrest]
    rcases hend with ⟨hclose, rfl⟩ | ⟨y, hcomma, -, hmore⟩
    · refine ⟨w, .last name w₁ w₂ j after, ?_, ?_, rfl, ?_⟩
      · rw [Members.Paired]; exact ⟨hsome, hj.1⟩
      · rw [Members.Distinct]; exact hj.2
      · rw [htext, hafter, hclose, Members.text]
        simp
    · obtain ⟨before, ms, hp, hd, rfl, hy⟩ := ih hmore
      refine ⟨w, .more name w₁ w₂ j after before ms, ?_, ?_, ?_, ?_⟩
      · rw [Members.Paired]; exact ⟨hsome, hj.1, hp⟩
      · rw [Members.Distinct]; exact ⟨hj.2, hd⟩
      · rw [Members.nodes, append_assoc, singleton_append]
      · dsimp only at hy
        rw [htext, hafter, hcomma, hy, Members.text]
        simp

theorem value_sound (m d : ℕ) : ReadsTrees (value m d) := by
  induction d with
  | zero =>
    intro s n s' h
    cases h
  | succ d ih =>
    intro s n s' h
    obtain ⟨w, hw⟩ := exists_ws s.rest
    obtain ⟨d', c, t, hd, hs, hcase⟩ := value_eq_ok h
    obtain rfl := Nat.succ.inj hd
    -- the text of a tree that starts where the value does
    have tree : ∀ j : Json, j.Strict → c :: t = j.text ++ s'.rest →
        (upTo (c :: t) s'.rest = j.text → j.node = n) →
          ∃ (w : Ws) (j : Json), j.Strict ∧ j.node = n ∧ s.rest = w.1 ++ (j.text ++ s'.rest) := by
      intro j hj ht hn
      refine ⟨w, j, hj, hn ?_, by rw [hw, hs, ht]⟩
      rw [ht, upTo_append]
    rcases hcase with ⟨rfl, ms, rfl, hms⟩ | ⟨rfl, ns, rfl, hns⟩ | ⟨-, -, k, rfl, hk⟩
    · obtain ⟨w', hw'⟩ := exists_ws t
      rcases container_eq_ok hms with ⟨rfl, he⟩ | ⟨-, fuel, hseq⟩
      · refine tree (.emptyObject w') ⟨by rw [Json.Paired]; trivial, by rw [Json.Distinct]; trivial⟩
          ?_ fun hraw => by rw [Json.node, hraw]
        rw [hw', he, Json.text]
        simp
      · obtain ⟨v, msTree, hp, hdis, rfl, ht⟩ := ih.members hseq
        have hnodup := (Parsed.members ⟨_, _, _, _, h⟩).2
        refine tree (.object (w'.join v) msTree) ⟨by rw [Json.Paired]; exact hp, ?_⟩
          ?_ fun hraw => by
          rw [Json.node, hraw]; rfl
        · rw [Json.Distinct]
          exact ⟨hnodup, hdis⟩
        · dsimp only at ht
          rw [hw', ht, Json.text, Ws.join]
          simp
    · obtain ⟨w', hw'⟩ := exists_ws t
      rcases container_eq_ok hns with ⟨rfl, he⟩ | ⟨-, fuel, hseq⟩
      · refine tree (.emptyArray w') ⟨by rw [Json.Paired]; trivial, by rw [Json.Distinct]; trivial⟩
          ?_ fun hraw => by rw [Json.node, hraw]
        rw [hw', he, Json.text]
        simp
      · obtain ⟨v, es, hp, hdis, rfl, ht⟩ := ih.elements hseq
        refine tree (.array (w'.join v) es)
          ⟨by rw [Json.Paired]; exact hp, by rw [Json.Distinct]; exact hdis⟩ ?_ fun hraw => by
            rw [Json.node, hraw]; rfl
        dsimp only at ht
        rw [hw', ht, Json.text, Ws.join]
        simp
    · obtain ⟨v, hv, rfl, ht⟩ := scalar_eq_ok hk
      refine tree (.scalar v) ⟨by rw [Json.Paired]; exact hv, by rw [Json.Distinct]; trivial⟩ ?_
        fun hraw => by rw [Json.node, hraw, Json.text]
      rw [ht, Json.text]

/-! ## Texts -/

def IsText (t : List Char) (j : Json) : Prop := ∃ w w' : Ws, t = w.1 ++ (j.text ++ w'.1)

def Json.Fits (l : Limits) (j : Json) : Prop := j.depth ≤ l.maxDepth ∧ j.count ≤ l.maxNodes

theorem space_blank (w : Ws) : space w.1 = [] := by
  have := space_append (t := []) w.2
  rwa [append_nil] at this

theorem IsText.yields {t : List Char} {j : Json} (ht : IsText t j) (hj : j.Strict) (l : Limits) :
    Yields (j.Fits l) (parseText l t) j.node := by
  obtain ⟨w, w', rfl⟩ := ht
  have hend : Delimited w'.1 := by
    rw [← append_nil w'.1]
    exact blank_delimited w'.2 (avoids_nil goesOn)
  have hvalue := (j.yields l.maxNodes (l.maxDepth + 1) 0 w.1 w'.1 hj.1 hj.2 w.2 hend).congr
    (Q := j.Fits l) (by rw [Nat.lt_succ_iff, Nat.zero_add]; rfl)
  refine hvalue.then ?_
  dsimp only
  rw [space_blank, require, if_pos rfl]
  rfl

/-- The parser accepts exactly the strict texts that fit the limits, and records their tree. -/
theorem parseText_eq_ok_iff {l : Limits} {t : List Char} {n : Node} :
    parseText l t = .ok n ↔ ∃ j, IsText t j ∧ j.Strict ∧ j.Fits l ∧ j.node = n := by
  constructor
  · intro h
    have hparse := h
    unfold parseText at h
    simp only [bind_eq_ok, require_eq_ok] at h
    obtain ⟨⟨n', s⟩, hn, _, hspace, h⟩ := h
    cases h
    obtain ⟨w, j, hj, rfl, hrest⟩ := value_sound _ _ _ _ _ hn
    obtain ⟨w', hw'⟩ := exists_ws s.rest
    have ht : IsText t j := ⟨w, w', by rw [hspace, append_nil] at hw'; rw [← hw', ← hrest]⟩
    refine ⟨j, ht, hj, ?_, rfl⟩
    by_contra hfits
    obtain ⟨e, -, he⟩ := (ht.yields hj l).stops hfits
    rw [hparse] at he
    cases he
  · rintro ⟨j, ht, hj, hfits, rfl⟩
    exact (ht.yields hj l).ok hfits

/-! ## Parts of a tree -/

/-- A part of a tree that takes no more of the limits. -/
structure Json.Holds (depth count : ℕ) (n : Node) (j : Json) : Prop where
  strict : j.Strict
  node : j.node = n
  depth_le : j.depth ≤ depth
  count_le : j.count ≤ count

theorem Elements.exists_of_mem {n : Node} : ∀ {es : Elements}, es.Paired → es.Distinct →
    n ∈ es.nodes → ∃ j, Json.Holds es.depth es.count n j
  | .last v w, hp, hd, hn => by
    rw [Elements.Paired] at hp
    rw [Elements.Distinct] at hd
    rw [Elements.nodes, List.mem_singleton] at hn
    rw [Elements.depth, Elements.count]
    exact ⟨v, ⟨hp, hd⟩, hn.symm, Nat.le_refl _, Nat.le_refl _⟩
  | .more v w w' es, hp, hd, hn => by
    rw [Elements.Paired] at hp
    rw [Elements.Distinct] at hd
    rw [Elements.nodes, List.mem_cons] at hn
    rw [Elements.depth, Elements.count]
    rcases hn with rfl | hn
    · exact ⟨v, ⟨hp.1, hd.1⟩, rfl, Nat.le_max_left _ _, Nat.le_add_right _ _⟩
    · obtain ⟨j, hj, hnode, hdepth, hcount⟩ := Elements.exists_of_mem hp.2 hd.2 hn
      exact ⟨j, hj, hnode, Nat.le_trans hdepth (Nat.le_max_right _ _),
        Nat.le_trans hcount (Nat.le_add_left _ _)⟩

theorem Members.exists_of_mem {m : List Char × Node} : ∀ {ms : Members}, ms.Paired → ms.Distinct →
    m ∈ ms.nodes → ∃ j, Json.Holds ms.depth ms.count m.2 j
  | .last name w w' v after, hp, hd, hm => by
    rw [Members.Paired] at hp
    rw [Members.Distinct] at hd
    rw [Members.nodes, List.mem_singleton] at hm
    rw [Members.depth, Members.count, hm]
    exact ⟨v, ⟨hp.2, hd⟩, rfl, Nat.le_refl _, Nat.le_refl _⟩
  | .more name w w' v after before ms, hp, hd, hm => by
    rw [Members.Paired] at hp
    rw [Members.Distinct] at hd
    rw [Members.nodes, List.mem_cons] at hm
    rw [Members.depth, Members.count]
    rcases hm with rfl | hm
    · exact ⟨v, ⟨hp.2.1, hd.1⟩, rfl, Nat.le_max_left _ _, Nat.le_add_right _ _⟩
    · obtain ⟨j, hj, hnode, hdepth, hcount⟩ := Members.exists_of_mem hp.2.2 hd.2 hm
      exact ⟨j, hj, hnode, Nat.le_trans hdepth (Nat.le_max_right _ _),
        Nat.le_trans hcount (Nat.le_add_left _ _)⟩

theorem Json.exists_member (hj : j.Strict) {raw : List Char} {ms : List (List Char × Node)}
    (hnode : j.node = .object raw ms) {m : List Char × Node} (hm : m ∈ ms) :
    ∃ j', Json.Holds j.depth j.count m.2 j' := by
  cases j with
  | scalar _ | emptyArray _ | array _ _ =>
    cases hnode
  | emptyObject _ =>
    cases hnode
    cases hm
  | object w tree =>
    cases hnode
    obtain ⟨hp, hd⟩ := hj
    obtain ⟨j', hj', hnode', hdepth, hcount⟩ := Members.exists_of_mem hp hd.2 hm
    exact ⟨j', hj', hnode', Nat.le_succ_of_le hdepth, Nat.le_succ_of_le hcount⟩

theorem Json.exists_element (hj : j.Strict) {raw : List Char} {ns : List Node}
    (hnode : j.node = .array raw ns) {n : Node} (hn : n ∈ ns) :
    ∃ j', Json.Holds j.depth j.count n j' := by
  cases j with
  | scalar _ | emptyObject _ | object _ _ =>
    cases hnode
  | emptyArray _ =>
    cases hnode
    cases hn
  | array w tree =>
    cases hnode
    obtain ⟨hp, hd⟩ := hj
    obtain ⟨j', hj', hnode', hdepth, hcount⟩ := Elements.exists_of_mem hp hd hn
    exact ⟨j', hj', hnode', Nat.le_succ_of_le hdepth, Nat.le_succ_of_le hcount⟩

theorem Json.node_raw (j : Json) : j.node.raw = j.text := by
  cases j <;> rw [Json.node, Node.raw]
  rw [Json.text]

end Olp.Oif
