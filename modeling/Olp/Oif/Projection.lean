import Olp.Oif.Values
import Olp.Oif.Pointers

/-!
# Prepared documents change only where a rule says so

An overlay is written as text and parsed again.  The text is that of a value (`IsValue`) which
agrees with the source outside the pointers of the changes; since a preparation lets through only
changes that a rule of the registry covers, in the request and its own, the prepared document
agrees with the source outside the pointers that a rule matches.
-/

namespace Olp.Oif

open List

/-! ## Values that were parsed -/

theorem Node.induct {P : Node → Prop} (scalar : ∀ k raw, P (.scalar k raw))
    (array : ∀ raw ns, (∀ n ∈ ns, P n) → P (.array raw ns))
    (object : ∀ raw ms, (∀ m ∈ ms, P m.2) → P (.object raw ms)) (n : Node) : P n :=
  @Node.rec P (fun ns => ∀ n ∈ ns, P n) (fun ms => ∀ m ∈ ms, P m.2) (fun m => P m.2)
    scalar array object
    (fun _ h => absurd h not_mem_nil)
    (fun _ _ hn hns _ h => (mem_cons.mp h).elim (fun e => e ▸ hn) (hns _))
    (fun _ h => absurd h not_mem_nil)
    (fun _ _ hm hms _ h => (mem_cons.mp h).elim (fun e => e ▸ hm) (hms _))
    (fun _ _ h => h) n

def Parsed (n : Node) : Prop := ∃ m d s s', value m d s = .ok (n, s')

theorem Parsed.isValue {n : Node} : Parsed n → IsValue n.raw (· = n) := by
  rintro ⟨m, d, s, s', h⟩
  exact (value_local m d s n s' h).2

theorem Document.parsed_root (d : Document) : Parsed d.root := by
  have h := d.parsed
  unfold parseText at h
  rw [bind_eq_ok] at h
  obtain ⟨⟨n, s⟩, hn, h⟩ := h
  simp only [bind_eq_ok, require_eq_ok] at h
  obtain ⟨_, -, h⟩ := h
  cases h
  exact ⟨_, _, _, _, hn⟩

variable {unclosed : SourceCode} {m : List Char × Node}

section Invariant

variable {α : Type} {one : List α → Cursor → Except Fault (α × Cursor)} {close : Char}
  {P : List α → Prop} (hone : ∀ done s a s', P done → one done s = .ok (a, s') → P (done ++ [a]))

include hone

theorem sequence_invariant {fuel : ℕ} {done s l s'} (hdone : P done)
    (h : sequence one close unclosed fuel done s = .ok (l, s')) : P l := by
  induction fuel generalizing done s l s' with
  | zero => cases h
  | succ f ih =>
    obtain ⟨_, a, u, hf, ha, hend⟩ := sequence_eq_ok h
    obtain rfl := Nat.succ.inj hf
    rcases hend with ⟨-, rfl⟩ | ⟨t, -, -, hrest⟩
    · exact hone _ _ _ _ hdone ha
    · exact ih (hone _ _ _ _ hdone ha) hrest

theorem container_invariant (hnil : P []) {s s' : Cursor} {l : List α}
    (h : container one close unclosed s = .ok (l, s')) : P l := by
  rcases container_eq_ok h with ⟨rfl, -⟩ | ⟨-, fuel, hseq⟩
  · exact hnil
  · exact sequence_invariant hone hnil hseq

end Invariant

variable {ns : List Node} {raw : List Char}

theorem Parsed.elements : Parsed (.array raw ns) → ∀ n ∈ ns, Parsed n := by
  rintro ⟨m, d, s, s', h⟩
  obtain ⟨d', c, t, rfl, hs, hcase⟩ := value_eq_ok h
  rcases hcase with ⟨-, ms, e, -⟩ | ⟨-, _, e, hns⟩ | ⟨-, -, k, e, -⟩
  · cases e
  · cases e
    refine container_invariant (P := fun l => ∀ n ∈ l, Parsed n) ?_ (by simp) hns
    intro done s a s' hdone ha n hn
    rcases mem_append.mp hn with hn | hn
    · exact hdone n hn
    · obtain rfl := mem_singleton.mp hn
      exact ⟨_, _, _, _, ha⟩
  · cases e

theorem member_name_not_mem {child : Cursor → Except Fault (Node × Cursor)}
    {done : List (List Char × Node)} {s s' : Cursor} (h : member child done s = .ok (m, s')) :
    m.1 ∉ done.map Prod.fst := by
  unfold member at h
  simp only [bind_eq_ok, require_eq_ok] at h
  obtain ⟨u, hu, _, hnew, h⟩ := h
  split at h
  · cases h
  · split at h
    · rw [bind_eq_ok] at h
      obtain ⟨⟨n, s₁⟩, hn, h⟩ := h
      cases h
      intro hmem
      obtain ⟨m, hm, e⟩ := mem_map.mp hmem
      exact hnew m hm e
    · cases h

variable {ms : List (List Char × Node)}

theorem Parsed.members :
    Parsed (.object raw ms) → (∀ m ∈ ms, Parsed m.2) ∧ (ms.map Prod.fst).Nodup := by
  rintro ⟨m, d, s, s', h⟩
  obtain ⟨d', c, t, rfl, hs, hcase⟩ := value_eq_ok h
  rcases hcase with ⟨-, _, e, hms⟩ | ⟨-, ns, e, -⟩ | ⟨-, -, k, e, -⟩
  · cases e
    refine container_invariant
      (P := fun l => (∀ m ∈ l, Parsed m.2) ∧ (l.map Prod.fst).Nodup) ?_ (by simp) hms
    rintro done s a s' ⟨hdone, hnodup⟩ ha
    constructor
    · intro n hn
      rcases mem_append.mp hn with hn | hn
      · exact hdone n hn
      · obtain rfl := mem_singleton.mp hn
        obtain ⟨u, v, -, -, -, hchild⟩ := member_eq_ok ha
        exact ⟨_, _, _, _, hchild⟩
    · rw [map_append, map_singleton, nodup_append]
      refine ⟨hnodup, nodup_singleton _, ?_⟩
      rintro x hx y hy rfl
      obtain rfl := mem_singleton.mp hy
      exact member_name_not_mem ha hx
  · cases e
  · cases e

variable {k : Kind} {t : List Char}

theorem scalar_kind {c : Char} {r : List Char} (h : scalar c t = .ok (k, r)) :
    k ≠ .object ∧ k ≠ .array := by
  unfold scalar at h
  split at h
  all_goals
    rw [map_eq_ok] at h
    obtain ⟨r', -, e⟩ := h
    obtain ⟨rfl, -⟩ := Prod.mk.inj e
    decide

theorem Parsed.kind : Parsed (.scalar k raw) → k ≠ .object ∧ k ≠ .array := by
  rintro ⟨m, d, s, s', h⟩
  obtain ⟨d', c, t, rfl, hs, hcase⟩ := value_eq_ok h
  rcases hcase with ⟨-, ms, e, -⟩ | ⟨-, ns, e, -⟩ | ⟨-, -, _, e, hk⟩
  · cases e
  · cases e
  · cases e
    exact scalar_kind hk

/-! ## Agreement of documents -/

/-- What can be seen of a value without its children: a scalar with its text, the length of an
array, and the names of the members of an object that no rule matches, in order. -/
inductive Shape where
  | scalar (kind : Kind) (raw : List Char)
  | array (length : ℕ)
  | object (names : List (List Char))
deriving DecidableEq, Repr

def Node.shape (M : List Str → Bool) (path : List Str) : Node → Shape
  | .scalar k raw => .scalar k raw
  | .array _ ns => .array ns.length
  | .object _ ms => .object ((ms.map Prod.fst).filter fun name => !M (path ++ [.ofText name]))

/-- Two values, both at a path, agree outside `M`. -/
abbrev Same (M : List Str → Bool) : List Str → Node → Node → Prop :=
  Agrees Node.child (Node.shape M) (M · = true)

variable {M : List Str → Bool} {path : List Str} {β : Type*} {l' : List β}

variable {α : Type*} {R : α → β → Prop} {l : List α} {d : Document}

theorem forall₂_getElem? (h : List.Forall₂ R l l') (i : ℕ) : Option.Rel R l[i]? l'[i]? := by
  induction h generalizing i with
  | nil => exact .none
  | cons hab _ ih =>
    cases i with
    | zero => exact .some hab
    | succ i => exact ih i

theorem same_array {raw' : List Char} {ns' : List Node}
    (h : List.Forall₂ (fun n n' => Same M (path ++ [.ofText (Text.ofNat n.2)]) n.1 n')
      ns.zipIdx ns') : Same M path (.array raw ns) (.array raw' ns') := by
  refine .of_children ?_ fun k _ => ?_
  · have := h.length_eq
    rw [length_zipIdx] at this
    simp [Node.shape, this]
  · simp only [Node.child]
    cases hk : index k with
    | none => exact .none
    | some i =>
      rw [index_eq_some hk]
      have hi := forall₂_getElem? h i
      rw [getElem?_zipIdx] at hi
      simp only [Option.bind_some]
      generalize ns[i]? = x, ns'[i]? = y at hi ⊢
      cases x with
      | none =>
        cases hi
        exact .none
      | some n =>
        cases hi with
        | some h => exact .some (by simpa using h)

theorem forall₂_find? {p : α → Bool} {q : β → Bool} (hpq : ∀ a b, R a b → p a = q b)
    (h : List.Forall₂ R l l') : Option.Rel R (l.find? p) (l'.find? q) := by
  induction h with
  | nil => exact .none
  | @cons a b _ _ hab _ ih =>
    rw [find?_cons, find?_cons, hpq a b hab]
    cases q b with
    | true => exact .some hab
    | false => exact ih

theorem find?_filter_of_imp {p q : α → Bool} (h : ∀ a ∈ l, q a = true → p a = true) :
    (l.filter p).find? q = l.find? q := by
  induction l with
  | nil => rfl
  | cons a l ih =>
    have ih := ih fun b hb => h b (mem_cons_of_mem a hb)
    cases hq : q a with
    | true => simp [h a mem_cons_self hq, hq]
    | false => cases hp : p a <;> simp [hp, hq, ih]

/-- Members kept in order with values that agree; what is left out or added is in `M`. -/
theorem same_object {raw' : List Char} {kept new : List (List Char × Node)}
    (keep : List Char × Node → Bool)
    (hkeep : ∀ m ∈ ms, keep m = false → M (path ++ [.ofText m.1]) = true)
    (hkept : List.Forall₂ (fun m m' => m'.1 = m.1 ∧ Same M (path ++ [.ofText m.1]) m.2 m'.2)
      (ms.filter keep) kept) (hnew : ∀ m ∈ new, M (path ++ [.ofText m.1]) = true) :
    Same M path (.object raw ms) (.object raw' (kept ++ new)) := by
  have hout : ∀ m ∈ ms, M (path ++ [.ofText m.1]) = false → keep m = true := by
    intro m hm hM
    by_contra hk
    rw [hkeep m hm (by simpa using hk)] at hM
    cases hM
  refine .of_children ?_ fun k hk => ?_
  · have hnames : kept.map Prod.fst = (ms.filter keep).map Prod.fst := by
      generalize ms.filter keep = l at hkept ⊢
      induction hkept with
      | nil => rfl
      | cons hm _ ih => rw [map_cons, map_cons, hm.1, ih]
    have hnone : (new.map Prod.fst).filter (fun name => !M (path ++ [.ofText name])) = [] := by
      rw [filter_eq_nil_iff]
      intro name hname
      obtain ⟨m, hm, rfl⟩ := mem_map.mp hname
      simp [hnew m hm]
    simp only [Node.shape, map_append, filter_append, hnone, append_nil, hnames,
      filter_map, filter_filter]
    congr 2
    refine filter_congr fun m hm => ?_
    cases hM : M (path ++ [.ofText m.1]) with
    | true => simp [hM]
    | false => simp [hM, hout m hm hM]
  · have hfind : ms.find? (fun m => Str.ofText m.1 = k) =
        (ms.filter keep).find? fun m => Str.ofText m.1 = k := by
      refine (find?_filter_of_imp fun m hm hmk => hout m hm ?_).symm
      rw [decide_eq_true_eq] at hmk
      rw [hmk]
      simpa using hk
    have hnone : new.find? (fun m => decide (Str.ofText m.1 = k)) = none := by
      rw [find?_eq_none]
      rintro m hm hmk
      rw [decide_eq_true_eq] at hmk
      exact hk (hmk ▸ hnew m hm)
    simp only [Node.child, find?_append, hnone, Option.or_none, hfind]
    have hrel := forall₂_find? (p := fun m => decide (Str.ofText m.1 = k))
      (q := fun m => decide (Str.ofText m.1 = k)) (fun m m' hm => by rw [hm.1]) hkept
    have hmk : ∀ m ∈ (ms.filter keep).find? fun m => decide (Str.ofText m.1 = k),
        Str.ofText m.1 = k := fun m hm => by simpa using find?_some hm
    generalize (ms.filter keep).find? _ = x, kept.find? _ = y at hrel hmk
    cases hrel with
    | none => exact .none
    | some h => exact .some (hmk _ rfl ▸ h.2)

theorem child_member (hnodup : (ms.map Prod.fst).Nodup) (hm : m ∈ ms) :
    (Node.object raw ms).child (.ofText m.1) = some m.2 := by
  have hfind : ms.find? (fun m' => decide (Str.ofText m'.1 = Str.ofText m.1)) = some m := by
    induction ms with
    | nil => exact absurd hm not_mem_nil
    | cons m' ms ih =>
      rw [map_cons, nodup_cons] at hnodup
      rcases mem_cons.mp hm with rfl | hm
      · simp
      · have hne : m'.1 ≠ m.1 := fun e => hnodup.1 (e ▸ mem_map_of_mem hm)
        rw [find?_cons_of_neg (by simpa using fun e => hne (Str.ofText_injective e))]
        exact ih hnodup.2 hm
  rw [Node.child, hfind, Option.map_some]

/-! ## Overlays that passed the checks -/

theorem parse_eq_ok {data : Str} {l : Limits} (h : parse data l = .ok d) :
    data = .ofText d.text := by
  unfold parse at h
  cases hj : parseJSON data l with
  | error e => rw [hj] at h; cases h
  | ok e =>
    rw [hj] at h
    cases h
    unfold parseJSON at hj
    dsimp only at hj
    split at hj
    · cases hj
    · split at hj
      · cases hj
      · rename_i t ht
        split at hj
        · cases hj
        · cases hj
          exact Str.text?_eq_some.mp ht

variable {c : Change}

theorem checkValue_eq_ok (h : c.checkValue d = .ok ()) (hc : c.remove = false) :
    ∃ e : Document, c.value = .ofText e.text := by
  simp only [Change.checkValue, hc, Bool.false_eq_true, if_false, map_eq_ok] at h
  obtain ⟨e, he, -⟩ := h
  exact ⟨e, parse_eq_ok he⟩

theorem checkPlace_eq_ok (h : c.checkPlace d = .ok ()) :
    c.pointer = [] ∧ c.remove = false ∨
      ∃ parent last p, lastSlash c.pointer = some (parent, last) ∧ d.lookup parent = some p ∧
        (unescape last).isSome ∧ (p.kind = .object ∨ p.kind = .array ∧ c.remove = false) := by
  unfold Change.checkPlace at h
  split at h
  · rename_i hc
    exact .inl ⟨hc, require_eq_ok.mp h⟩
  · split at h
    · cases h
    · rename_i parent last hlast
      split at h
      · cases h
      · rename_i p hp
        simp only [bind_eq_ok, require_eq_ok] at h
        obtain ⟨_, hkind, _, -, hescape⟩ := h
        refine .inr ⟨parent, last, p, hlast, hp, hescape, ?_⟩
        by_cases hobj : p.kind = .object
        · exact .inl hobj
        · simp only [hobj, ne_eq, not_false_eq_true, true_and, not_or, not_not] at hkind
          exact .inr ⟨hkind.1, by simpa using hkind.2.2⟩

/-- An overlay whose changes passed the checks on a document, at pointers of `M`. -/
structure Overlay.Fits (o : Overlay) (d : Document) (M : List Str → Bool) : Prop where
  paths : ∀ p ∈ o.paths, ∃ c ∈ o.changes, c.pointer = p
  place : ∀ c ∈ o.changes, c.checkPlace d = .ok ()
  value : ∀ c ∈ o.changes, c.checkValue d = .ok ()
  mem : ∀ c ∈ o.changes, ∀ path, pointerTo path = c.pointer → M path = true
  text : ∀ c ∈ o.changes, ∃ t, c.pointer = .ofText t

theorem follow_scalar {parts : List Str} (h : parts ≠ []) :
    follow (.scalar k raw) parts = none := by
  obtain ⟨part, parts, rfl⟩ := exists_cons_of_ne_nil h
  cases hd : decode part <;> simp [follow, hd, Node.child]

namespace Overlay.Fits

variable {o : Overlay}

theorem find {p : Str} {c : Change} (h : o.find p = some c) : c ∈ o.changes ∧ c.pointer = p := by
  refine ⟨mem_of_find?_eq_some h, ?_⟩
  simpa using find?_some h

theorem below (hf : o.Fits d M) {n : Node} (hn : walk Node.child d.root path = some n)
    (hb : o.below (pointerTo path) = true) : ∀ k raw, Parsed n → n ≠ .scalar k raw := by
  rintro k raw hparsed rfl
  obtain ⟨p, hp, hprefix⟩ := any_eq_true.mp hb
  obtain ⟨s, rfl⟩ := isPrefixOf_iff_prefix.mp hprefix
  rw [append_assoc, singleton_append] at hp
  obtain ⟨c, hc, hpointer⟩ := hf.paths _ hp
  rcases checkPlace_eq_ok (hf.place c hc) with ⟨e, -⟩ | ⟨parent, last, q, hlast, hq, -, hkind⟩
  · rw [e] at hpointer
    simp at hpointer
  · rw [hpointer] at hlast
    rcases exists_lastSlash s with hs | ⟨a, b, rfl, hb'⟩
    · -- the parent is the scalar itself
      rw [lastSlash_append _ hs] at hlast
      cases hlast
      rw [d.lookup_pointerTo, hn] at hq
      cases hq
      have := hparsed.kind
      rcases hkind with h | ⟨h, -⟩
      · exact this.1 h
      · exact this.2 h
    · -- the parent is below the scalar, where there is nothing
      rw [← cons_append, ← append_assoc, lastSlash_append _ hb'] at hlast
      cases hlast
      rw [d.lookup_below, hn, Option.bind_some, follow_scalar (splitOn_ne_nil _ _)] at hq
      cases hq

theorem keeps_element (hf : o.Fits d M) {raw : List Char}
    (hn : walk Node.child d.root path = some (.array raw ns)) (k : Str) :
    (o.find (pointerTo (path ++ [k]))).any Change.remove = false := by
  cases h : o.find (pointerTo (path ++ [k])) with
  | none => rfl
  | some c =>
    obtain ⟨hc, hpointer⟩ := find h
    rw [pointerTo_concat, pointer] at hpointer
    rcases checkPlace_eq_ok (hf.place c hc) with ⟨-, hr⟩ | ⟨parent, last, q, hlast, hq, -, hkind⟩
    · exact hr
    · rw [hpointer, lastSlash_append _ (slash_not_mem_escape k)] at hlast
      cases hlast
      rw [d.lookup_pointerTo, hn] at hq
      cases hq
      rcases hkind with h | ⟨-, hr⟩
      · cases h
      · exact hr

theorem keeps_root (hf : o.Fits d M) : (o.find []).any Change.remove = false := by
  cases h : o.find [] with
  | none => rfl
  | some c =>
    obtain ⟨hc, hpointer⟩ := find h
    rcases checkPlace_eq_ok (hf.place c hc) with ⟨-, hr⟩ | ⟨parent, last, q, hlast, -⟩
    · exact hr
    · rw [hpointer] at hlast
      cases hlast

end Overlay.Fits

/-! ## What is written -/

section Items

variable {ι α : Type} {item : ι → List α → Cursor → Except Fault (α × Cursor)} {close : Char}

variable (item close) in
/-- A string is the text of an item with `P`, and does not start like the end of the container. -/
def Item (s : Str) (P : α → Prop) : Prop :=
  ∃ t, s = .ofText t ∧ (∃ x u, space t = x :: u ∧ x ≠ close) ∧ Reads item t P

theorem opens_append (h : ∃ x u, space t = x :: u ∧ x ≠ close) (r : List Char) :
    ∃ x u, space (t ++ r) = x :: u ∧ x ≠ close := by
  obtain ⟨x, u, hu, hx⟩ := h
  obtain ⟨w, hw, e⟩ := exists_blank t
  refine ⟨x, u ++ r, ?_, hx⟩
  rw [e, append_assoc, space_append hw, hu, cons_append, space_cons (space_eq_cons hu)]

variable {Ps : List (α → Prop)}

theorem items_readsAll (unclosed : SourceCode) (hc : isSpace close = false)
    (hg : goesOn close = false) (hcomma : close ≠ ',') {items : List Str}
    (h : List.Forall₂ (Item item close) items Ps) (hne : items ≠ []) :
    ∃ T, [Sym.char ','].intercalate items ++ [.char close] = Str.ofText T ∧
      (∃ x u, space T = x :: u ∧ x ≠ close) ∧
      ReadsAll item close unclosed T (List.Forall₂ (fun P a => P a) Ps) := by
  have hnil : Blank [] := fun c hc => absurd hc not_mem_nil
  induction h with
  | nil => exact absurd rfl hne
  | @cons s P items Ps hs hitems ih =>
    obtain ⟨t, rfl, hopen, hreads⟩ := hs
    cases hitems with
    | nil =>
      refine ⟨t ++ ([] ++ [close]), by simp [List.intercalate], opens_append hopen _,
        (hreads.last hnil hc hg hcomma).mono ?_⟩
      rintro l ⟨a, rfl, ha⟩
      exact .cons ha .nil
    | @cons s' P' items Ps hs' hitems =>
      obtain ⟨T, hT, -, hall⟩ := ih (cons_ne_nil _ _)
      refine ⟨t ++ ([] ++ ',' :: T), ?_, opens_append hopen _,
        (hreads.cons hnil hall hcomma).mono ?_⟩
      · have : [Sym.char ','].intercalate (Str.ofText t :: s' :: items) =
            Str.ofText t ++ .char ',' :: [Sym.char ','].intercalate (s' :: items) := by
          simp [List.intercalate]
        rw [this, append_assoc, cons_append, hT]
        simp
      · rintro l ⟨a, l', rfl, ha, hl⟩
        exact .cons ha hl

theorem items_closes (unclosed : SourceCode)
    (hitem : ∀ i done s, item i done s = item i done ⟨space s.rest, s.nodes⟩)
    (hc : isSpace close = false) (hg : goesOn close = false) (hcomma : close ≠ ',')
    {items : List Str} (h : List.Forall₂ (Item item close) items Ps) :
    ∃ T, [Sym.char ','].intercalate items ++ [.char close] = Str.ofText T ∧
      Closes item close unclosed T (List.Forall₂ (fun P a => P a) Ps) := by
  have hnil : Blank [] := fun c hc => absurd hc not_mem_nil
  by_cases hne : items = []
  · subst hne
    cases h
    refine ⟨[close], rfl, fun i s l s' r hs h => ?_⟩
    obtain ⟨rfl, hr⟩ := closes_empty hnil hc i s l s' r hs h
    exact ⟨.nil, hr⟩
  · obtain ⟨T, hT, hopen, hall⟩ := items_readsAll unclosed hc hg hcomma h hne
    exact ⟨T, hT, hall.closes hitem hopen hnil⟩

end Items

theorem enclose_array {items : List Str} {Ps : List (Node → Prop)}
    (h : List.Forall₂ (Item element ']') items Ps) :
    ∃ T, enclose '[' ']' items = .ofText T ∧ IsValue T fun n =>
      ∃ ns, n = .array T ns ∧ List.Forall₂ (fun P a => P a) Ps ns := by
  obtain ⟨T, hT, hc⟩ :=
    items_closes .expectedArrayEnd element_space (by decide) (by decide) (by decide) h
  exact ⟨'[' :: T, by simp [enclose, hT], hc.array⟩

theorem enclose_object {items : List Str} {Ps : List (List Char × Node → Prop)}
    (h : List.Forall₂ (Item field '\x7d') items Ps) :
    ∃ T, enclose '\x7b' '\x7d' items = .ofText T ∧ IsValue T fun n =>
      ∃ ms, n = .object T ms ∧ List.Forall₂ (fun P a => P a) Ps ms := by
  obtain ⟨T, hT, hc⟩ :=
    items_closes .expectedObjectEnd field_space (by decide) (by decide) (by decide) h
  exact ⟨'\x7b' :: T, by simp [enclose, hT], hc.object⟩

theorem item_member (name : Str) {P : Node → Prop} (h : IsValue t P) :
    Item field '\x7d' (Str.ofText (marshal name) ++ .char ':' :: Str.ofText t)
      fun m => m.1 = name.sane ∧ P m.2 := by
  have hnil : Blank [] := fun c hc => absurd hc not_mem_nil
  refine ⟨[] ++ (marshal name ++ ([] ++ ':' :: t)), by simp, ?_, ?_⟩
  · exact ⟨'"', _, space_cons (by decide), by decide⟩
  · rw [← memberName_marshal]
    exact reads_field hnil hnil (marshal_takes name) h

theorem forall₂_append_left {a b : List α} {l : List β} (h : List.Forall₂ R (a ++ b) l) :
    ∃ l₁ l₂, l = l₁ ++ l₂ ∧ List.Forall₂ R a l₁ ∧ List.Forall₂ R b l₂ := by
  induction a generalizing l with
  | nil => exact ⟨[], l, rfl, .nil, h⟩
  | cons x a ih =>
    cases h with
    | cons hx h =>
      obtain ⟨l₁, l₂, rfl, h₁, h₂⟩ := ih h
      exact ⟨_ :: l₁, l₂, rfl, .cons hx h₁, h₂⟩

theorem forall_mem_of_forall₂_const {P : β → Prop}
    (h : List.Forall₂ (fun (Q : β → Prop) b => Q b) (l.map fun _ => P) l') : ∀ b ∈ l', P b := by
  rw [List.forall₂_map_left_iff] at h
  induction h with
  | nil => simp
  | cons hb _ ih => exact forall_mem_cons.mpr ⟨hb, ih⟩

theorem ofText_sane_of_escape {name : Str} (h : escape name = .ofText t) :
    Str.ofText name.sane = name := by
  induction name generalizing t with
  | nil => rfl
  | cons x s ih =>
    rw [escape_cons] at h
    have hx : ∃ c, x = .char c := by
      cases x with
      | char c => exact ⟨c, rfl⟩
      | stray b =>
        cases t with
        | nil => cases h
        | cons c t => cases h
    have hs : ∃ u, escape s = .ofText u := by
      refine ⟨t.drop (escapeSym x).length, ?_⟩
      have := congrArg (List.drop (escapeSym x).length) h
      rw [drop_left] at this
      rw [this, Str.ofText, Str.ofText, map_drop]
    obtain ⟨c, rfl⟩ := hx
    obtain ⟨u, hu⟩ := hs
    exact congrArg (.char c :: ·) (ih hu)

/-- A member that is not removed. -/
def Overlay.keeps (o : Overlay) (path : List Str) (m : List Char × Node) : Bool :=
  !(o.find (pointerTo (path ++ [.ofText m.1]))).any Change.remove

namespace Overlay.Fits

variable {o : Overlay}

theorem place_same (hf : o.Fits d M) {n : Node} {contents : Str}
    (hkeep : (o.find (pointerTo path)).any Change.remove = false) (hn : Parsed n)
    (hcontents : o.below (pointerTo path) = true →
      ∃ t, contents = .ofText t ∧ IsValue t (Same M path n)) :
    ∃ t, o.place (pointerTo path) n.raw contents = .ofText t ∧ IsValue t (Same M path n) := by
  unfold Overlay.place
  cases h : o.find (pointerTo path) with
  | some c =>
    obtain ⟨hc, hpointer⟩ := find h
    rw [h] at hkeep
    obtain ⟨e, he⟩ := checkValue_eq_ok (hf.value c hc) hkeep
    refine ⟨e.text, he, e.isValue_text.mono fun m _ => ?_⟩
    exact .of_mem (hf.mem c hc path hpointer.symm)
  | none =>
    dsimp only
    split
    · rename_i hb
      exact hcontents hb
    · refine ⟨n.raw, rfl, hn.isValue.mono ?_⟩
      rintro m rfl
      exact .refl _

theorem elements_items (o : Overlay) (path : List Str) {i : ℕ} (h : ∀ n ∈ ns.zipIdx i, ∃ t,
      n.1.render o (pointerTo (path ++ [.ofText (Text.ofNat n.2)])) = .ofText t ∧
        IsValue t (Same M (path ++ [.ofText (Text.ofNat n.2)]) n.1)) :
    List.Forall₂ (Item element ']') (renderElements o ns (pointerTo path) i)
      ((ns.zipIdx i).map fun n => Same M (path ++ [.ofText (Text.ofNat n.2)]) n.1) := by
  induction ns generalizing i with
  | nil => exact .nil
  | cons n ns ih =>
    obtain ⟨t, ht, hv⟩ := h (n, i) mem_cons_self
    refine .cons ?_ (ih fun n' hn' => h n' (mem_cons_of_mem _ hn'))
    rw [pointerTo_concat] at ht
    exact ⟨t, ht, hv.opens, hv.reads⟩

theorem members_items (o : Overlay) (path : List Str) (h : ∀ m ∈ ms, o.keeps path m = true → ∃ t,
      m.2.render o (pointerTo (path ++ [.ofText m.1])) = .ofText t ∧
        IsValue t (Same M (path ++ [.ofText m.1]) m.2)) :
    List.Forall₂ (Item field '\x7d') (renderMembers o ms (pointerTo path))
      ((ms.filter (o.keeps path)).map fun m m' =>
        m'.1 = m.1 ∧ Same M (path ++ [.ofText m.1]) m.2 m'.2) := by
  induction ms with
  | nil => exact .nil
  | cons m ms ih =>
    have ih := ih fun m' hm' => h m' (mem_cons_of_mem _ hm')
    obtain ⟨name, n⟩ := m
    rw [renderMembers, ← pointerTo_concat]
    cases hk : o.keeps path (name, n) with
    | false =>
      rw [filter_cons_of_neg (by simp [hk]), if_pos (by simpa [Overlay.keeps] using hk)]
      exact ih
    | true =>
      obtain ⟨t, ht, hv⟩ := h (name, n) mem_cons_self hk
      rw [filter_cons_of_pos hk, if_neg (by simpa [Overlay.keeps] using hk), map_cons, ht]
      refine .cons ?_ ih
      have := item_member (.ofText name) hv
      rwa [sane_ofText] at this

/-- A pointer just below a path is that of a member, whose name has valid escapes and is valid UTF-8
as the pointer is; so the name stands in the document as it is. -/
theorem exists_name (hf : o.Fits d M) {rest : Str} (hslash : slash ∉ rest)
    (hp : pointerTo path ++ slash :: rest ∈ o.paths) :
    ∃ name c, unescape rest = some name ∧ Str.ofText name.sane = name ∧
      pointer (pointerTo path) name = pointerTo path ++ slash :: rest ∧
      o.find (pointerTo path ++ slash :: rest) = some c := by
  obtain ⟨c, hc, hpointer⟩ := hf.paths _ hp
  obtain ⟨name, hname⟩ : ∃ name, unescape rest = some name := by
    rcases checkPlace_eq_ok (hf.place c hc) with ⟨e, -⟩ | ⟨_, _, _, hlast, -, hescape, -⟩
    · rw [hpointer] at e
      simp at e
    · rw [hpointer, lastSlash_append _ hslash] at hlast
      cases hlast
      exact Option.isSome_iff_exists.mp hescape
  have hrest : escape name = rest := escape_of_decode hslash (unescape_eq_decode rest ▸ hname)
  obtain ⟨w, hw⟩ := hf.text c hc
  have hsane : Str.ofText name.sane = name := by
    refine ofText_sane_of_escape (t := w.drop ((pointerTo path).length + 1)) ?_
    rw [hrest, Str.ofText, map_drop, ← Str.ofText, ← hw, hpointer]
    simp [drop_append]
  obtain ⟨c', hfind⟩ : ∃ c', o.find (pointerTo path ++ slash :: rest) = some c' := by
    refine Option.isSome_iff_exists.mp ?_
    rw [Overlay.find, find?_isSome]
    exact ⟨c, hc, by simp [hpointer]⟩
  exact ⟨name, c', hname, hsane, by rw [pointer, hrest], hfind⟩

/-- What is added to an object is at a pointer of a change. -/
theorem added_items (hf : o.Fits d M) {names : List (List Char)} :
    List.Forall₂ (Item field '\x7d') (o.added (pointerTo path) names)
      ((o.added (pointerTo path) names).map fun _ m => M (path ++ [.ofText m.1]) = true) := by
  rw [List.forall₂_map_right_iff, List.forall₂_same]
  intro s hs
  obtain ⟨p, hp, hs⟩ := mem_filterMap.mp hs
  dsimp only at hs
  split at hs
  · cases hs
  · rename_i hcond
    rw [not_or, not_not] at hcond
    obtain ⟨rest, rfl⟩ := isPrefixOf_iff_prefix.mp hcond.2
    rw [append_assoc, singleton_append] at hp hs
    rw [show (pointerTo path ++ slash :: rest).drop ((pointerTo path).length + 1) = rest by
      simp [drop_append]] at hs
    split at hs
    · cases hs
    · rename_i hslash
      obtain ⟨name, c, hname, hsane, hpointer, hfind⟩ := hf.exists_name hslash hp
      rw [hname, Option.getD_some, hpointer, hfind] at hs
      obtain ⟨hc, hcp⟩ := find hfind
      split at hs
      · cases hs
      · rename_i hremove
        cases hs
        obtain ⟨e, he⟩ := checkValue_eq_ok (hf.value c hc) (by simpa using hremove)
        rw [Option.map_some, Option.getD_some, he]
        obtain ⟨u, hu, hopen, hreads⟩ := item_member name e.isValue_text
        refine ⟨u, hu, hopen, hreads.mono ?_⟩
        rintro ⟨x, n⟩ ⟨rfl, -⟩
        refine hf.mem c hc _ ?_
        rw [hsane, pointerTo_concat, hpointer, hcp]

theorem render_same (hf : o.Fits d M) (n : Node) (path)
    (hwalk : walk Node.child d.root path = some n) (hn : Parsed n)
    (hkeep : (o.find (pointerTo path)).any Change.remove = false) :
    ∃ t, n.render o (pointerTo path) = .ofText t ∧ IsValue t (Same M path n) := by
  induction n using Node.induct generalizing path with
  | scalar k raw => exact hf.place_same hkeep hn fun hb => absurd rfl (hf.below hwalk hb k raw hn)
  | array raw ns ih =>
    refine hf.place_same hkeep hn fun _ => ?_
    have hitems := elements_items (M := M) o path (i := 0) fun x (hx : x ∈ ns.zipIdx 0) => by
      obtain ⟨n, i⟩ := x
      have hget : ns[i]? = some n := mem_zipIdx_iff_getElem?.mp hx
      have hmem := mem_of_getElem? hget
      refine ih n hmem _ ?_ (hn.elements n hmem) (hf.keeps_element hwalk _)
      rw [walk_concat, hwalk, Option.bind_some, Node.child, index_ofNat, Option.bind_some, hget]
    obtain ⟨T, hT, hv⟩ := enclose_array hitems
    refine ⟨T, hT, hv.mono ?_⟩
    rintro _ ⟨ns', rfl, h⟩
    exact same_array (List.forall₂_map_left_iff.mp h)
  | object raw ms ih =>
    refine hf.place_same hkeep hn fun _ => ?_
    obtain ⟨hparsed, hnodup⟩ := hn.members
    have hitems := members_items (M := M) o path fun m (hm : m ∈ ms) hk => by
      refine ih m hm _ ?_ (hparsed m hm) (by simpa [Overlay.keeps] using hk)
      rw [walk_concat, hwalk, Option.bind_some, child_member hnodup hm]
    obtain ⟨T, hT, hv⟩ := enclose_object (rel_append hitems hf.added_items)
    refine ⟨T, hT, hv.mono ?_⟩
    rintro _ ⟨ms', rfl, h⟩
    obtain ⟨kept, new, rfl, hkept, hnew⟩ := forall₂_append_left h
    refine same_object (o.keeps path) ?_ (List.forall₂_map_left_iff.mp hkept) ?_
    · intro m _ hm
      simp only [Overlay.keeps, Bool.not_eq_false', Option.any_eq_true] at hm
      obtain ⟨c, hc, -⟩ := hm
      exact hf.mem c (find hc).1 _ (find hc).2.symm
    · exact forall_mem_of_forall₂_const hnew

end Overlay.Fits

/-! ## Overlays, requests and preparations -/

/-- A pointer that a change may have: it is valid UTF-8 and, where it leads along a path, in `M`. -/
structure Covered (M : List Str → Bool) (p : Str) : Prop where
  text : ∃ t, p = Str.ofText t
  mem : ∀ path, pointerTo path = p → M path = true

def Change.total (changes : List Change) : ℕ := (changes.map fun c => c.value.bytes.length).sum

variable {s s' : ℕ × List Change}

theorem Change.join_eq_ok :
    c.join d s = .ok s' ↔
      c.value.bytes.length ≤ d.limits.maxBytes - s.1 ∧ ¬(c.origin = .empty ∨ c.reason = []) ∧
      c.pointer ∉ s.2.map Change.pointer ∧ c.checkPlace d = .ok () ∧ c.checkValue d = .ok () ∧
      (s.1 + c.value.bytes.length, s.2 ++ [c]) = s' := by
  simp only [Change.join, bind_eq_ok, require_eq_ok, pure, Except.pure, Except.ok.injEq]
  constructor
  · rintro ⟨_, hsize, _, hprov, _, hfresh, _, hplace, _, hvalue, hs⟩
    exact ⟨hsize, hprov, hfresh, hplace, hvalue, hs⟩
  · rintro ⟨hsize, hprov, hfresh, hplace, hvalue, hs⟩
    exact ⟨(), hsize, (), hprov, (), hfresh, (), hplace, (), hvalue, hs⟩

/-- What the changes of an overlay have passed when they are joined to others. -/
structure Joined (d : Document) (s : ℕ × List Change) (changes : List Change) : Prop where
  size : s.1 + Change.total changes ≤ d.limits.maxBytes
  provenance : ∀ c ∈ changes, ¬(c.origin = .empty ∨ c.reason = [])
  distinct : (changes.map Change.pointer).Nodup
  fresh : ∀ c ∈ changes, c.pointer ∉ s.2.map Change.pointer
  place : ∀ c ∈ changes, c.checkPlace d = .ok ()
  value : ∀ c ∈ changes, c.checkValue d = .ok ()

theorem Change.total_cons (c : Change) (changes : List Change) :
    Change.total (c :: changes) = c.value.bytes.length + Change.total changes := rfl

variable {changes : List Change}

theorem foldlM_join_eq_ok (hs : s.1 ≤ d.limits.maxBytes) :
    changes.foldlM (Change.join d) s = .ok s' ↔
      Joined d s changes ∧ (s.1 + Change.total changes, s.2 ++ changes) = s' := by
  induction changes generalizing s with
  | nil =>
    rw [foldlM_nil, append_nil]
    refine ⟨fun h => ⟨⟨hs, by simp, .nil, by simp, by simp, by simp⟩, Except.ok.inj h⟩, ?_⟩
    rintro ⟨-, rfl⟩
    rfl
  | cons c changes ih =>
    rw [foldlM_cons, bind_eq_ok, Change.total_cons, ← Nat.add_assoc]
    constructor
    · rintro ⟨s₁, h₁, h⟩
      obtain ⟨hsize, hprov, hfresh, hplace, hvalue, rfl⟩ := Change.join_eq_ok.mp h₁
      obtain ⟨hj, rfl⟩ := (ih (by dsimp only; omega)).mp h
      have hnew : ∀ c' ∈ changes, c'.pointer ∉ s.2.map Change.pointer ∧ c'.pointer ≠ c.pointer := by
        intro c' hc'
        simpa [not_or] using hj.fresh c' hc'
      refine ⟨⟨?_, forall_mem_cons.mpr ⟨hprov, hj.provenance⟩, nodup_cons.mpr ⟨?_, hj.distinct⟩,
        forall_mem_cons.mpr ⟨hfresh, fun c' hc' => (hnew c' hc').1⟩,
        forall_mem_cons.mpr ⟨hplace, hj.place⟩, forall_mem_cons.mpr ⟨hvalue, hj.value⟩⟩, by simp⟩
      · rw [Change.total_cons, ← Nat.add_assoc]
        exact hj.size
      · intro hmem
        obtain ⟨c', hc', e⟩ := mem_map.mp hmem
        exact (hnew c' hc').2 e
    · rintro ⟨hj, rfl⟩
      have hsize := hj.size
      rw [Change.total_cons, ← Nat.add_assoc] at hsize
      obtain ⟨hprov, hprovs⟩ := forall_mem_cons.mp hj.provenance
      obtain ⟨hfirst, hdistinct⟩ := nodup_cons.mp hj.distinct
      obtain ⟨hfresh, hfreshs⟩ := forall_mem_cons.mp hj.fresh
      obtain ⟨hplace, hplaces⟩ := forall_mem_cons.mp hj.place
      obtain ⟨hvalue, hvalues⟩ := forall_mem_cons.mp hj.value
      refine ⟨_, Change.join_eq_ok.mpr ⟨by omega, hprov, hfresh, hplace, hvalue, rfl⟩, ?_⟩
      refine (ih (by dsimp only; omega)).mpr
        ⟨⟨hsize, hprovs, hdistinct, ?_, hplaces, hvalues⟩, by simp⟩
      intro c' hc' hmem
      rw [map_append, mem_append] at hmem
      rcases hmem with hmem | hmem
      · exact hfreshs c' hc' hmem
      · have e : c'.pointer = c.pointer := by simpa using hmem
        exact hfirst (e ▸ mem_map_of_mem hc')

/-- The changes pass every check that `Apply` makes before it writes anything. -/
structure Accepted (d : Document) (changes : List Change) : Prop
    extends Joined d (0, []) changes where
  count : changes.length ≤ d.limits.maxNodes
  apart : ∀ p ∈ changes.map Change.pointer, ∀ q ∈ ancestors p, q ∉ changes.map Change.pointer

def Overlay.ofChanges (changes : List Change) : Overlay :=
  ⟨changes, (changes.map Change.pointer).insertionSort fun p q => p.bytes ≤ q.bytes⟩

theorem Accepted.apply_eq (ha : Accepted d changes) (hne : changes ≠ []) :
    apply d changes = parse (d.root.render (.ofChanges changes) []) d.limits := by
  have hjoin := (foldlM_join_eq_ok (Nat.zero_le _)).mpr ⟨ha.toJoined, rfl⟩
  have hapart : ∀ p ∈ (Overlay.ofChanges changes).paths, ∀ q ∈ ancestors p,
      q ∉ (Overlay.ofChanges changes).paths := by
    simpa only [Overlay.ofChanges, mem_insertionSort] using ha.apart
  have hpass : ∀ {p : Prop} [Decidable p] {e : EnvelopeError}, p → require p e = .ok () :=
    fun hp => require_eq_ok.mpr hp
  rw [apply, if_neg hne, hpass ha.count, hjoin]
  exact congrArg
    (· >>= fun _ => parse (d.root.render (.ofChanges changes) []) d.limits) (hpass hapart)

/-- Changes that were applied had been accepted. -/
theorem accepted_of_apply {d' : Document} (h : apply d changes = .ok d') : Accepted d changes := by
  unfold apply at h
  split at h
  · rename_i hnil
    subst hnil
    exact ⟨⟨Nat.zero_le _, by simp, .nil, by simp, by simp, by simp⟩, Nat.zero_le _, by simp⟩
  · simp only [bind_eq_ok, require_eq_ok, mem_insertionSort] at h
    obtain ⟨_, hcount, s, hjoin, _, hapart, -⟩ := h
    obtain ⟨hj, rfl⟩ := (foldlM_join_eq_ok (Nat.zero_le _)).mp hjoin
    exact ⟨hj, hcount, hapart⟩

theorem apply_same {d' : Document} (h : apply d changes = .ok d')
    (hc : ∀ c ∈ changes, Covered M c.pointer) : Same M [] d.root d'.root := by
  by_cases hne : changes = []
  · rw [apply, if_pos hne] at h
    cases h
    exact .refl _
  · have ha := accepted_of_apply h
    rw [ha.apply_eq hne] at h
    have hf : (Overlay.ofChanges changes).Fits d M :=
      { paths := fun p hp => mem_map.mp ((mem_insertionSort _).mp hp)
        place := ha.place
        value := ha.value
        mem := fun c hmem => (hc c hmem).mem
        text := fun c hmem => (hc c hmem).text }
    obtain ⟨t, ht, hv⟩ := hf.render_same d.root [] rfl d.parsed_root hf.keeps_root
    have := parse_eq_ok h
    rw [pointerTo_nil] at ht
    rw [ht] at this
    obtain rfl := Str.ofText_injective this
    exact hv.root

variable {r : Request}

theorem withChanges_eq_ok {r' : Request} (h : r.withChanges changes = .ok r') :
    apply r.effective changes = .ok r'.effective ∧ r'.source = r.source ∧
      r'.provenance = r.provenance ++ changes.map Change.provenance := by
  unfold Request.withChanges at h
  rw [bind_eq_ok] at h
  obtain ⟨d, hd, h⟩ := h
  cases h
  exact ⟨hd, rfl, rfl⟩

/-- Edits change the document at covered pointers only, and provenance is never lost. -/
theorem edits_same {edits : List (List Change)} {r' : Request}
    (h : edits.foldlM Request.withChanges r = .ok r')
    (hc : ∀ p ∈ r'.provenance, Covered M p.pointer) :
    r'.source = r.source ∧ (∀ p ∈ r.provenance, p ∈ r'.provenance) ∧
      Same M [] r.effective.root r'.effective.root := by
  induction edits generalizing r with
  | nil =>
    cases h
    exact ⟨rfl, fun _ hp => hp, .refl _⟩
  | cons changes edits ih =>
    rw [foldlM_cons, bind_eq_ok] at h
    obtain ⟨r₁, h₁, h⟩ := h
    obtain ⟨happly, hsource, hprov⟩ := withChanges_eq_ok h₁
    obtain ⟨hsource', hprov', hsame⟩ := ih h
    rw [hprov] at hprov'
    refine ⟨hsource'.trans hsource, fun p hp => hprov' p (mem_append_left _ hp), ?_⟩
    refine (apply_same happly fun c hmem => ?_).trans hsame
    exact hc _ (hprov' c.provenance (mem_append_right _ (mem_map_of_mem hmem)))

/-! ## Rules -/

variable {ls : List (List α)} {before after : Option Node}

theorem mem_intercalate {s x : α} (h : x ∈ [s].intercalate ls) : x = s ∨ ∃ l ∈ ls, x ∈ l := by
  induction ls with
  | nil => simp [List.intercalate] at h
  | cons l ls ih =>
    cases ls with
    | nil => exact .inr ⟨l, mem_cons_self, by simpa [List.intercalate] using h⟩
    | cons l' ls =>
      have : [s].intercalate (l :: l' :: ls) = l ++ s :: [s].intercalate (l' :: ls) := by
        simp [List.intercalate]
      rw [this, mem_append, mem_cons] at h
      rcases h with h | h | h
      · exact .inr ⟨l, mem_cons_self, h⟩
      · exact .inl h
      · rcases ih h with h | ⟨m, hm, hx⟩
        · exact .inl h
        · exact .inr ⟨m, mem_cons_of_mem l hm, hx⟩

theorem intercalate_mem {s x : α} (hl : l ∈ ls) (hx : x ∈ l) : x ∈ [s].intercalate ls := by
  induction ls with
  | nil => exact absurd hl not_mem_nil
  | cons m ls ih =>
    cases ls with
    | nil =>
      obtain rfl := mem_singleton.mp hl
      simpa [List.intercalate] using hx
    | cons m' ls =>
      have : [s].intercalate (m :: m' :: ls) = m ++ s :: [s].intercalate (m' :: ls) := by
        simp [List.intercalate]
      rw [this, mem_append, mem_cons]
      rcases mem_cons.mp hl with rfl | hl
      · exact .inl hx
      · exact .inr (.inr (ih hl))

theorem exists_ofText {s : Str} : (∃ t, s = Str.ofText t) ↔ ∀ x ∈ s, ∃ c, x = Sym.char c := by
  refine ⟨?_, fun h => ?_⟩
  · rintro ⟨t, rfl⟩ x hx
    obtain ⟨c, -, rfl⟩ := mem_map.mp hx
    exact ⟨c, rfl⟩
  · induction s with
    | nil => exact ⟨[], rfl⟩
    | cons x s ih =>
      obtain ⟨c, rfl⟩ := h x mem_cons_self
      obtain ⟨t, rfl⟩ := ih fun y hy => h y (mem_cons_of_mem _ hy)
      exact ⟨c :: t, rfl⟩

theorem segmentsMatch_text {before ws gs : List Str} (h : segmentsMatch d before ws gs = true)
    (hw : ∀ w ∈ ws, ∃ t, w = Str.ofText t) : ∀ g ∈ gs, ∃ t, g = Str.ofText t := by
  induction ws generalizing before gs with
  | nil =>
    cases gs with
    | nil => simp
    | cons g gs => cases h
  | cons w ws ih =>
    cases gs with
    | nil => cases h
    | cons g gs =>
      rw [segmentsMatch, Bool.and_eq_true] at h
      obtain ⟨hg, h⟩ := h
      refine forall_mem_cons.mpr
        ⟨?_, ih h fun w' hw' => hw w' (mem_cons_of_mem _ hw')⟩
      split at hg
      · rw [decide_eq_true_eq] at hg
        exact hg ▸ hw w mem_cons_self
      · split at hg
        · rename_i i _ _ hi _
          exact ⟨Text.ofNat i, index_eq_some hi⟩
        · cases hg

variable {p : Str}

theorem identityPointerMatches_text {pattern : Str} (h : identityPointerMatches pattern p d = true)
    (hp : ∃ t, pattern = Str.ofText t) : ∃ t, p = Str.ofText t := by
  rw [identityPointerMatches, Bool.or_eq_true, Bool.and_eq_true, decide_eq_true_eq] at h
  rcases h with ⟨rfl, -⟩ | h
  · exact hp
  · rw [exists_ofText] at hp ⊢
    have hparts : ∀ w ∈ pattern.splitOn slash, ∃ t, w = Str.ofText t := by
      intro w hw
      rw [exists_ofText]
      intro x hx
      refine hp x ?_
      have hjoin : [slash].intercalate (pattern.splitOn slash) = pattern :=
        intercalate_splitOn slash
      rw [← hjoin]
      exact intercalate_mem hw hx
    have hgot := segmentsMatch_text h hparts
    intro x hx
    have hjoin : [slash].intercalate (p.splitOn slash) = p := intercalate_splitOn slash
    rw [← hjoin] at hx
    rcases mem_intercalate hx with rfl | ⟨g, hg, hx⟩
    · exact ⟨'/', rfl⟩
    · exact exists_ofText.mp (hgot g hg) x hx

variable {rules : List IdentityRule}

theorem allowed_matches {origin : Origin} (h : allowed rules d p origin before after = true) :
    ∃ rule ∈ rules, identityPointerMatches rule.pointer p d = true := by
  obtain ⟨rule, hrule, h⟩ := any_eq_true.mp h
  simp only [Bool.and_eq_true] at h
  exact ⟨rule, hrule, h.1.1.1⟩

theorem allowed_covered {origin : Origin} (hutf : ∀ rule ∈ rules, ∃ t, rule.pointer = Str.ofText t)
    (h : allowed rules d p origin before after = true) :
    Covered (fun path => rules.any fun rule =>
      identityPointerMatches rule.pointer (pointerTo path) d) p := by
  obtain ⟨rule, hrule, hm⟩ := allowed_matches h
  refine ⟨identityPointerMatches_text hm (hutf rule hrule), ?_⟩
  rintro path rfl
  exact any_eq_true.mpr ⟨rule, hrule, hm⟩

/-- A prepared document differs from the effective one at matched pointers only. -/
theorem prepareIdentity_same {destination : Descriptor} {p : Prepared}
    (hutf : ∀ rule ∈ rules, ∃ t, rule.pointer = Str.ofText t)
    (h : prepareIdentity r destination changes rules = .ok p) :
    p.request = r ∧ (∀ q ∈ r.provenance, Covered (fun path => rules.any fun rule =>
        identityPointerMatches rule.pointer (pointerTo path) r.effective) q.pointer) ∧
      Same (fun path => rules.any fun rule =>
        identityPointerMatches rule.pointer (pointerTo path) r.effective) []
        r.effective.root p.document.root := by
  simp only [prepareIdentity, bind_eq_ok, require_eq_ok] at h
  obtain ⟨_, -, _, hprov, _, hchanges, d, happly, h⟩ := h
  cases h
  refine ⟨rfl, fun q hq => allowed_covered hutf (hprov q hq), apply_same happly fun c hc => ?_⟩
  have hcheck := forM_eq_ok.mp hchanges c hc
  simp only [Change.checkIdentity, bind_eq_ok, require_eq_ok] at hcheck
  obtain ⟨v, -, -, hallowed⟩ := hcheck
  exact allowed_covered hutf hallowed

/-- A registry has no other bindings than it was given. -/
theorem mem_bindings {operations : List Identity} {bindings : List Binding} {registry : Registry}
    (h : newRegistry operations bindings = .ok registry) :
    ∀ b ∈ registry.bindings, b ∈ bindings := by
  have hfold : ∀ (ops : List Identity) (l bs bs' : List Binding),
      l.foldlM (registerBinding ops) bs = .ok bs' → ∀ b ∈ bs', b ∈ bs ∨ b ∈ l := by
    intro ops l
    induction l with
    | nil =>
      intro bs bs' h b hb
      cases h
      exact .inl hb
    | cons a l ih =>
      intro bs bs' h b hb
      rw [foldlM_cons, bind_eq_ok] at h
      obtain ⟨bs₁, h₁, h⟩ := h
      simp only [registerBinding, bind_eq_ok, require_eq_ok] at h₁
      obtain ⟨_, -, _, -, _, -, _, -, h₁⟩ := h₁
      cases h₁
      rcases ih _ _ h b hb with hb | hb
      · rcases mem_append.mp hb with hb | hb
        · exact .inl hb
        · exact .inr (mem_singleton.mp hb ▸ mem_cons_self)
      · exact .inr (mem_cons_of_mem a hb)
  unfold newRegistry at h
  simp only [bind_eq_ok] at h
  obtain ⟨ops, -, bs, hbs, h⟩ := h
  cases h
  intro b hb
  exact (hfold ops bindings [] bs hbs b hb).resolve_left not_mem_nil

/-- **A prepared document changes only where the registry says so.**  Along every path that never
comes to a pointer that a rule of the registry matches, for the operation and dialect of the
request, the prepared document looks like the source: nothing on both sides, the same scalar in
the same text, an array of the same length, or an object whose members that no rule matches have
the same names in the same order. -/
theorem prepared_same (operations : List Identity) (bindings : List Binding) (registry : Registry)
    (hregistry : newRegistry operations bindings = .ok registry)
    (hutf : ∀ b ∈ bindings, ∀ rule ∈ b.identityRules, ∃ t, rule.pointer = Str.ofText t)
    (descriptor destination : Descriptor) (source : Document) (edits : List (List Change))
    (changes : List Change) (p : Prepared)
    (h : registry.prepareAfter descriptor source edits destination changes = .ok p)
    (path : List Str)
    (hpath : ∀ q, q <+: path →
      registry.registers destination p.request.effective (pointerTo q) = false) :
    (source.lookup (pointerTo path)).map (Node.shape
        (fun q => registry.registers destination p.request.effective (pointerTo q)) path) =
      (p.document.lookup (pointerTo path)).map (Node.shape
        (fun q => registry.registers destination p.request.effective (pointerTo q)) path) := by
  unfold Registry.prepareAfter Registry.prepareIdentity Registry.binding at h
  simp only [bind_eq_ok] at h
  obtain ⟨r₀, hnew, r, hedits, b, hb, h⟩ := h
  obtain ⟨b', hfind⟩ : ∃ b', registry.bindings.find?
      (·.has destination.dialect destination.operation) = some b' := by
    cases hf : registry.bindings.find? (·.has destination.dialect destination.operation) with
    | none => rw [hf] at hb; cases hb
    | some b' => exact ⟨b', rfl⟩
  rw [hfind] at hb
  obtain rfl := Except.ok.inj hb
  have hutf := hutf b' (mem_bindings hregistry b' (mem_of_find?_eq_some hfind))
  obtain ⟨rfl, hprov, hprepared⟩ := prepareIdentity_same hutf h
  obtain ⟨hsource, -, hsame⟩ := edits_same hedits hprov
  have hr₀ : r₀.effective = source := by
    simp only [newRequest, bind_eq_ok, require_eq_ok] at hnew
    obtain ⟨_, -, hnew⟩ := hnew
    cases hnew
    rfl
  rw [hr₀] at hsame
  rw [source.lookup_pointerTo, p.document.lookup_pointerTo]
  simp only [Registry.registers, hfind, Option.any_some] at hpath ⊢
  refine (hsame.trans hprepared) path fun q hq => ?_
  exact ne_true_of_eq_false (hpath q hq)

/-! ## Runs -/

def sampleIdentity : Identity := ⟨[.char 'a'], [.char '1']⟩

/-- One rule, at a pointer. -/
def sampleBindings (pattern : Str) : List Binding :=
  [⟨sampleIdentity, sampleIdentity, [⟨pattern, .identityBinding, .number, none⟩]⟩]

def sampleRegistry (pattern : Str) : Registry := ⟨[sampleIdentity], sampleBindings pattern⟩

/-- The document with a member `m`, which is one, and a member `n`, which is two. -/
def sampleSource : Document where
  text := ['\x7b', '"', 'm', '"', ':', '1', ',', '"', 'n', '"', ':', '2', '\x7d']
  limits := Limits.effective {}
  root := .object ['\x7b', '"', 'm', '"', ':', '1', ',', '"', 'n', '"', ':', '2', '\x7d']
    [(['m'], .scalar .number ['1']), (['n'], .scalar .number ['2'])]
  parsed := by rfl

/-- A number at the pointer of the rule. -/
def digitChange (pattern : Str) (digit : Char) : Change :=
  ⟨pattern, [.char digit], false, .identityBinding, [.char 'r']⟩

/-- Three at the pointer of the rule, after some edits. -/
def samplePrepare (pattern : Str) (edits : List (List Change)) : Except EnvelopeError Prepared :=
  (sampleRegistry pattern).prepareAfter ⟨sampleIdentity, sampleIdentity⟩ sampleSource edits
    ⟨sampleIdentity, sampleIdentity⟩ [digitChange pattern '3']

theorem prepared_same_sample : ∃ p,
    samplePrepare [slash, .char 'm'] [[digitChange [slash, .char 'm'] '4']] = .ok p ∧
    (sampleSource.lookup (pointerTo [[.char 'n']])).map (Node.shape (fun q =>
        (sampleRegistry [slash, .char 'm']).registers ⟨sampleIdentity, sampleIdentity⟩
          p.request.effective (pointerTo q)) [[.char 'n']]) =
      (p.document.lookup (pointerTo [[.char 'n']])).map (Node.shape (fun q =>
        (sampleRegistry [slash, .char 'm']).registers ⟨sampleIdentity, sampleIdentity⟩
          p.request.effective (pointerTo q)) [[.char 'n']]) := by
  have hok : (samplePrepare [slash, .char 'm']
      [[digitChange [slash, .char 'm'] '4']]).toBool = true := by decide
  cases hp : samplePrepare [slash, .char 'm'] [[digitChange [slash, .char 'm'] '4']] with
  | error e =>
    rw [hp] at hok
    cases hok
  | ok p =>
    refine ⟨p, rfl, prepared_same [sampleIdentity] (sampleBindings [slash, .char 'm'])
      (sampleRegistry [slash, .char 'm']) rfl ?_ _ _ sampleSource _ _ p hp [[.char 'n']] ?_⟩
    · simp only [sampleBindings, forall_mem_singleton]
      exact ⟨['/', 'm'], rfl⟩
    · intro q hq
      rcases prefix_cons_iff.mp hq with rfl | ⟨q, rfl, hnil⟩
      · rfl
      · obtain rfl := prefix_nil.mp hnil
        rfl

/-- A byte that is not UTF-8 becomes the replacement character in the name of the member that is
added, and the rule does not match the pointer of that member. -/
theorem stray_not_registered : ∃ p, samplePrepare [slash, .stray 0xff] [] = .ok p ∧
    (∀ q, q <+: [[.char '�']] → (sampleRegistry [slash, .stray 0xff]).registers
      ⟨sampleIdentity, sampleIdentity⟩ p.request.effective (pointerTo q) = false) ∧
    (sampleSource.lookup (pointerTo [[.char '�']])).isNone ∧
    (p.document.lookup (pointerTo [[.char '�']])).isSome := by
  have hok : (samplePrepare [slash, .stray 0xff] []).toOption.any
      (fun p => (p.document.lookup (pointerTo [[.char '�']])).isSome) = true := by decide
  cases hp : samplePrepare [slash, .stray 0xff] [] with
  | error e =>
    rw [hp] at hok
    cases hok
  | ok p =>
    rw [hp] at hok
    refine ⟨p, rfl, ?_, by decide, hok⟩
    intro q hq
    rcases prefix_cons_iff.mp hq with rfl | ⟨q, rfl, hnil⟩
    · rfl
    · obtain rfl := prefix_nil.mp hnil
      rfl

end Olp.Oif
