import Olp.Oif.Refinement
import Olp.Oif.Paths

/-!
# Overlays edit the tree

What `Apply` writes for a document is the text of a tree: the source tree with the values of the
changes in their places, the removed members left out and the new ones added (`Edited`).  A tree is
parsed from its text unless it breaks a limit, so that a list of changes that was accepted fails for
no other reason; and as changes are found by their pointers and sorted by them, their order in the
list does not matter.
-/

namespace Olp.Oif

open List

/-! ## Trees from their parts -/

theorem intercalate_cons_cons {α : Type*} (s : α) (a b : List α) (l : List (List α)) :
    [s].intercalate (a :: b :: l) = a ++ s :: [s].intercalate (b :: l) := by
  simp [List.intercalate]

theorem ofText_intercalate (sep : Char) (ts : List (List Char)) :
    [Sym.char sep].intercalate (ts.map Str.ofText) = Str.ofText ([sep].intercalate ts) := by
  induction ts with
  | nil => rfl
  | cons t ts ih =>
    cases ts with
    | nil => simp [List.intercalate]
    | cons u ts =>
      rw [map_cons] at ih
      rw [map_cons, map_cons, intercalate_cons_cons, intercalate_cons_cons, ih]
      simp

theorem enclose_ofText (first last : Char) (ts : List (List Char)) :
    enclose first last (ts.map Str.ofText) =
      Str.ofText (first :: ([','].intercalate ts ++ [last])) := by
  rw [enclose, ofText_intercalate]
  simp

def Written (t : List Char) (j : Json) : Prop := IsText t j ∧ j.Strict

variable {ts : List (List Char)}

theorem exists_elements {js : List Json} (h : List.Forall₂ Written ts js) (hne : ts ≠ []) :
    ∃ (w : Ws) (es : Elements), es.Paired ∧ es.Distinct ∧
      es.nodes = js.map Json.node ∧ [','].intercalate ts = w.1 ++ es.text := by
  induction h with
  | nil => exact absurd rfl hne
  | @cons t j ts js htj hrest ih =>
    obtain ⟨⟨w, after, rfl⟩, hp, hd⟩ := htj
    cases hrest with
    | nil =>
      refine ⟨w, .last j after, ?_, ?_, rfl, ?_⟩
      · rwa [Elements.Paired]
      · rwa [Elements.Distinct]
      · simp [List.intercalate, Elements.text]
    | cons hu hus =>
      obtain ⟨before, es, hps, hds, hnodes, htext⟩ := ih (cons_ne_nil _ _)
      refine ⟨w, .more j after before es, ?_, ?_, ?_, ?_⟩
      · rw [Elements.Paired]
        exact ⟨hp, hps⟩
      · rw [Elements.Distinct]
        exact ⟨hd, hds⟩
      · rw [Elements.nodes, hnodes]
        rfl
      · rw [intercalate_cons_cons, htext, Elements.text]
        simp

theorem exists_array {js : List Json} (h : List.Forall₂ Written ts js) :
    ∃ (raw : List Char) (j : Json), Written ('[' :: ([','].intercalate ts ++ [']'])) j ∧
      j.node = .array raw (js.map Json.node) := by
  by_cases hne : ts = []
  · subst hne
    cases h
    refine ⟨(Json.emptyArray noSpace).text, .emptyArray noSpace,
      ⟨⟨noSpace, noSpace, ?_⟩, ?_, ?_⟩, rfl⟩
    · rw [Json.text]
      rfl
    · rw [Json.Paired]; trivial
    · rw [Json.Distinct]; trivial
  · obtain ⟨w, es, hp, hd, hnodes, htext⟩ := exists_elements h hne
    refine ⟨(Json.array w es).text, .array w es, ⟨⟨noSpace, noSpace, ?_⟩, ?_, ?_⟩, ?_⟩
    · rw [Json.text, htext]
      simp [noSpace]
    · rwa [Json.Paired]
    · rwa [Json.Distinct]
    · rw [Json.node, hnodes]

/-- A member as it is written. -/
def WrittenMember (t : List Char) (x : List Char × Json) : Prop :=
  ∃ name u, t = marshal name ++ ':' :: u ∧ name.sane = x.1 ∧ Written u x.2

variable {xs : List (List Char × Json)}

theorem exists_members (h : List.Forall₂ WrittenMember ts xs) (hne : ts ≠ []) :
    ∃ ms : Members, ms.Paired ∧ ms.Distinct ∧
      ms.nodes = xs.map (fun x => (x.1, x.2.node)) ∧ [','].intercalate ts = ms.text := by
  induction h with
  | nil => exact absurd rfl hne
  | @cons t x ts xs htx hrest ih =>
    obtain ⟨key, j⟩ := x
    obtain ⟨name, u, rfl, hname, ⟨w, after, rfl⟩, hp, hd⟩ := htx
    obtain ⟨ps, hps, hmeaning⟩ := marshal_quoted name
    have hsome : (meaning ps).isSome = true := by rw [hmeaning]; rfl
    have hkey : nameOf ps = key := by
      rw [nameOf, hmeaning]
      exact hname
    cases hrest with
    | nil =>
      refine ⟨.last ps noSpace w j after, ?_, ?_, ?_, ?_⟩
      · rw [Members.Paired]
        exact ⟨hsome, hp⟩
      · rwa [Members.Distinct]
      · rw [Members.nodes, hkey]
        rfl
      · simp [List.intercalate, Members.text, hps, noSpace]
    | cons hu hus =>
      obtain ⟨ms, hpm, hdm, hnodes, htext⟩ := ih (cons_ne_nil _ _)
      refine ⟨.more ps noSpace w j after noSpace ms, ?_, ?_, ?_, ?_⟩
      · rw [Members.Paired]
        exact ⟨hsome, hp, hpm⟩
      · rw [Members.Distinct]
        exact ⟨hd, hdm⟩
      · rw [Members.nodes, hnodes, hkey]
        rfl
      · rw [intercalate_cons_cons, htext, Members.text, hps]
        simp [noSpace]

theorem exists_object (h : List.Forall₂ WrittenMember ts xs) (hnodup : (xs.map Prod.fst).Nodup) :
    ∃ (raw : List Char) (j : Json), Written ('\x7b' :: ([','].intercalate ts ++ ['\x7d'])) j ∧
      j.node = .object raw (xs.map fun x => (x.1, x.2.node)) := by
  by_cases hne : ts = []
  · subst hne
    cases h
    refine ⟨(Json.emptyObject noSpace).text, .emptyObject noSpace,
      ⟨⟨noSpace, noSpace, ?_⟩, ?_, ?_⟩, rfl⟩
    · rw [Json.text]
      rfl
    · rw [Json.Paired]; trivial
    · rw [Json.Distinct]; trivial
  · obtain ⟨ms, hp, hd, hnodes, htext⟩ := exists_members h hne
    refine ⟨(Json.object noSpace ms).text, .object noSpace ms, ⟨⟨noSpace, noSpace, ?_⟩, ?_, ?_⟩, ?_⟩
    · rw [Json.text, htext]
      simp [noSpace]
    · rwa [Json.Paired]
    · rw [Json.Distinct, hnodes, map_map]
      exact ⟨hnodup, hd⟩
    · rw [Json.node, hnodes]

/-! ## Edited trees -/

/-- The value that a change gives. -/
def Change.root (d : Document) (c : Change) : Node :=
  match parse c.value d.limits with
  | .ok e => e.root
  | .error _ => .scalar .absent []

/-- No change removes the member at a path. -/
def survives (changes : List Change) (path : List Str) (m : List Char × Node) : Bool :=
  decide (∀ c ∈ changes, c.pointer = pointerTo (path ++ [.ofText m.1]) → c.remove = false)

/-- A change that adds a member to the object at a path, whose own names are given. -/
def Inserts (changes : List Change) (path : List Str) (names : List (List Char))
    (x : List Char × Change) : Prop :=
  x.2 ∈ changes ∧ x.2.pointer = pointerTo (path ++ [.ofText x.1]) ∧ x.2.remove = false ∧ x.1 ∉ names

/-- The value at the first pointer contains the one at the second. -/
def Above (p q : Str) : Prop := p ++ [slash] <+: q

/-- `Edited d changes path n n'`: the value `n` at the path of the document becomes `n'` by the
changes. -/
inductive Edited (d : Document) (changes : List Change) : List Str → Node → Node → Prop
  | /-- A change at the path gives its value. -/
    replaced {path : List Str} {n : Node} {c : Change} : c ∈ changes → c.pointer = pointerTo path →
      c.remove = false → Edited d changes path n (c.root d)
  | /-- A value with no change at it or below stays as it is, with its text. -/
    kept {path : List Str} {n : Node} :
      (∀ c ∈ changes, c.pointer ≠ pointerTo path ∧ ¬Above (pointerTo path) c.pointer) →
      Edited d changes path n n
  | /-- The elements of an array are edited in their places. -/
    array {path : List Str} {raw raw' : List Char} {ns ns' : List Node} :
      (∀ c ∈ changes, c.pointer ≠ pointerTo path) →
      (∃ c ∈ changes, Above (pointerTo path) c.pointer) → ns'.length = ns.length →
      (∀ i n n', ns[i]? = some n → ns'[i]? = some n' →
        Edited d changes (path ++ [.ofText (Text.ofNat i)]) n n') →
      Edited d changes path (.array raw ns) (.array raw' ns')
  | /-- The members of an object that are not removed are edited in their order, and the new ones
    follow in the order of their pointers. -/
    object {path : List Str} {raw raw' : List Char} {ms ms' : List (List Char × Node)}
      {new : List (List Char × Change)} : (∀ c ∈ changes, c.pointer ≠ pointerTo path) →
      (∃ c ∈ changes, Above (pointerTo path) c.pointer) →
      ms'.map Prod.fst = (ms.filter (survives changes path)).map Prod.fst →
      (∀ m n', m ∈ ms → (m.1, n') ∈ ms' → Edited d changes (path ++ [.ofText m.1]) m.2 n') →
      (∀ x, x ∈ new ↔ Inserts changes path (ms.map Prod.fst) x) →
      new.Pairwise (fun x y => x.2.pointer.bytes < y.2.pointer.bytes) →
      Edited d changes path (.object raw ms)
        (.object raw' (ms' ++ new.map fun x => (x.1, x.2.root d)))

/-- An overlay as `Apply` sets it up from changes that passed its checks. -/
structure Overlay.Sound (o : Overlay) (d : Document) : Prop where
  fits : o.Fits d fun _ => true
  listed : ∀ c ∈ o.changes, c.pointer ∈ o.paths
  distinct : (o.changes.map Change.pointer).Nodup
  sorted : o.paths.Pairwise fun p q => p.bytes < q.bytes

namespace Overlay.Sound

variable {o : Overlay} {d : Document} {path : List Str} {p : Str}

section

variable (ho : o.Sound d)

include ho

theorem find_eq_some {c : Change} : o.find p = some c ↔ c ∈ o.changes ∧ c.pointer = p := by
  refine ⟨Fits.find, fun ⟨hc, hp⟩ => ?_⟩
  cases hfind : o.find p with
  | none =>
    have := find?_eq_none.mp hfind c hc
    simp [hp] at this
  | some c' =>
    obtain ⟨hc', hp'⟩ := Fits.find hfind
    exact congrArg some (inj_on_of_nodup_map ho.distinct hc' hc (hp'.trans hp.symm))

theorem find_eq_none : o.find p = none ↔ ∀ c ∈ o.changes, c.pointer ≠ p := by
  rw [Option.eq_none_iff_forall_not_mem]
  constructor
  · intro h c hc hp
    exact h c (ho.find_eq_some.mpr ⟨hc, hp⟩)
  · intro h c hc
    obtain ⟨hmem, hp⟩ := ho.find_eq_some.mp hc
    exact h c hmem hp

theorem survives_eq (m : List Char × Node) : survives o.changes path m = o.keeps path m := by
  rw [survives, Overlay.keeps, Bool.eq_iff_iff, decide_eq_true_iff]
  cases h : o.find (pointerTo (path ++ [.ofText m.1])) with
  | none =>
    refine iff_of_true (fun c hc hp => absurd hp (ho.find_eq_none.mp h c hc)) rfl
  | some c =>
    have hc := ho.find_eq_some.mp h
    simp only [Option.any_some, Bool.not_eq_true']
    constructor
    · intro hall
      exact hall c hc.1 hc.2
    · intro hr c' hc' hp
      have := ho.find_eq_some.mpr ⟨hc', hp⟩
      rw [h] at this
      exact Option.some.inj this ▸ hr

theorem exists_written {c : Change} (hc : c ∈ o.changes) (hr : c.remove = false) :
    ∃ t j, c.value = .ofText t ∧ Written t j ∧ j.node = c.root d := by
  have h := ho.fits.value c hc
  simp only [Change.checkValue, hr, Bool.false_eq_true, if_false, map_eq_ok] at h
  obtain ⟨e, he, -⟩ := h
  obtain ⟨j, htext, hj, -, hnode⟩ := parseText_eq_ok_iff.mp e.parsed
  refine ⟨e.text, j, parse_eq_ok he, ⟨htext, hj⟩, ?_⟩
  rw [hnode, Change.root, he]

theorem below_iff : o.below p = true ↔ ∃ c ∈ o.changes, Above p c.pointer := by
  rw [Overlay.below, any_eq_true]
  constructor
  · rintro ⟨q, hq, hprefix⟩
    obtain ⟨c, hc, rfl⟩ := ho.fits.paths q hq
    exact ⟨c, hc, isPrefixOf_iff_prefix.mp hprefix⟩
  · rintro ⟨c, hc, habove⟩
    exact ⟨c.pointer, ho.listed c hc, isPrefixOf_iff_prefix.mpr habove⟩

theorem place_written {n : Node} {contents : Str} (hn : Parsed n)
    (hkeep : (o.find (pointerTo path)).any Change.remove = false)
    (hcontents : (∀ c ∈ o.changes, c.pointer ≠ pointerTo path) →
      (∃ c ∈ o.changes, Above (pointerTo path) c.pointer) →
      ∃ t j, contents = .ofText t ∧ Written t j ∧ Edited d o.changes path n j.node) :
    ∃ t j, o.place (pointerTo path) n.raw contents = .ofText t ∧ Written t j ∧
      Edited d o.changes path n j.node := by
  unfold Overlay.place
  cases h : o.find (pointerTo path) with
  | some c =>
    obtain ⟨hc, hpointer⟩ := ho.find_eq_some.mp h
    rw [h] at hkeep
    obtain ⟨t, j, ht, hj, hnode⟩ := ho.exists_written hc hkeep
    exact ⟨t, j, ht, hj, hnode ▸ .replaced hc hpointer hkeep⟩
  | none =>
    dsimp only
    split
    · rename_i hb
      exact hcontents (ho.find_eq_none.mp h) (ho.below_iff.mp hb)
    · rename_i hb
      obtain ⟨m, l, s, s', hvalue⟩ := hn
      obtain ⟨_, j, hj, rfl, -⟩ := value_sound m l s n s' hvalue
      refine ⟨_, j, rfl, ⟨⟨noSpace, noSpace, ?_⟩, hj⟩, .kept fun c hc => ⟨?_, ?_⟩⟩
      · rw [Json.node_raw]
        simp [noSpace]
      · exact ho.find_eq_none.mp h c hc
      · exact fun habove => hb (ho.below_iff.mpr ⟨c, hc, habove⟩)

end

theorem elements_written (d : Document) (o : Overlay) (path : List Str) {ns : List Node} {i : ℕ}
    (h : ∀ k n, ns[k]? = some n → ∃ t j,
      n.render o (pointerTo (path ++ [.ofText (Text.ofNat (i + k))])) = .ofText t ∧ Written t j ∧
        Edited d o.changes (path ++ [.ofText (Text.ofNat (i + k))]) n j.node) :
    ∃ ts js, renderElements o ns (pointerTo path) i = ts.map Str.ofText ∧
      List.Forall₂ Written ts js ∧ js.length = ns.length ∧
      ∀ (k : ℕ) n j, ns[k]? = some n → js[k]? = some j →
        Edited d o.changes (path ++ [.ofText (Text.ofNat (i + k))]) n j.node := by
  induction ns generalizing i with
  | nil =>
    refine ⟨[], [], rfl, .nil, rfl, ?_⟩
    intro k n j hn
    cases hn
  | cons n ns ih =>
    obtain ⟨t, j, ht, hj, he⟩ := h 0 n rfl
    have hrest := fun k n' (hn' : ns[k]? = some n') => h (k + 1) n' hn'
    simp only [← Nat.add_assoc, Nat.add_right_comm i _ 1] at hrest
    obtain ⟨ts, js, hts, hjs, hlen, hes⟩ := ih hrest
    refine ⟨t :: ts, j :: js, ?_, .cons hj hjs, congrArg (· + 1) hlen, ?_⟩
    · rw [renderElements, ← pointerTo_concat, hts]
      exact congrArg (· :: _) ht
    · intro k n' j' hn' hj'
      cases k with
      | zero =>
        cases hn'
        cases hj'
        exact he
      | succ k =>
        rw [← Nat.add_assoc, Nat.add_right_comm]
        exact hes k n' j' hn' hj'

/-- The members of an object that are not removed are written in their order. -/
theorem members_written (d : Document) (o : Overlay) (path : List Str)
    {ms : List (List Char × Node)} (hnodup : (ms.map Prod.fst).Nodup)
    (h : ∀ m ∈ ms, o.keeps path m = true → ∃ t j,
      m.2.render o (pointerTo (path ++ [.ofText m.1])) = .ofText t ∧ Written t j ∧
        Edited d o.changes (path ++ [.ofText m.1]) m.2 j.node) :
    ∃ ts xs, renderMembers o ms (pointerTo path) = ts.map Str.ofText ∧
      List.Forall₂ WrittenMember ts xs ∧
      xs.map Prod.fst = (ms.filter (o.keeps path)).map Prod.fst ∧
      ∀ m j, m ∈ ms → (m.1, j) ∈ xs → Edited d o.changes (path ++ [.ofText m.1]) m.2 j.node := by
  induction ms with
  | nil =>
    refine ⟨[], [], rfl, .nil, rfl, ?_⟩
    intro m j hm
    cases hm
  | cons m ms ih =>
    obtain ⟨hfresh, hnodup⟩ := nodup_cons.mp hnodup
    obtain ⟨ts, xs, hts, hxs, hnames, hes⟩ :=
      ih hnodup fun m' hm' => h m' (mem_cons_of_mem _ hm')
    -- no other member is written under the name of the first one
    have hother : ∀ j, (m.1, j) ∉ xs := by
      intro j hj
      have hmem := mem_map_of_mem (f := Prod.fst) hj
      rw [hnames] at hmem
      exact hfresh ((filter_sublist.map Prod.fst).subset hmem)
    rw [renderMembers, ← pointerTo_concat]
    cases hk : o.keeps path m with
    | false =>
      rw [filter_cons_of_neg (by simp [hk]), if_pos (by simpa [Overlay.keeps] using hk)]
      refine ⟨ts, xs, hts, hxs, hnames, ?_⟩
      intro m' j hm' hj
      rcases mem_cons.mp hm' with rfl | hm'
      · exact absurd hj (hother j)
      · exact hes m' j hm' hj
    | true =>
      obtain ⟨t, j, ht, hj, he⟩ := h m mem_cons_self hk
      rw [filter_cons_of_pos hk, if_neg (by simpa [Overlay.keeps] using hk)]
      refine ⟨(marshal (.ofText m.1) ++ ':' :: t) :: ts, (m.1, j) :: xs, ?_, .cons ?_ hxs, ?_, ?_⟩
      · rw [ht, hts]
        simp
      · exact ⟨.ofText m.1, t, rfl, sane_ofText m.1, hj⟩
      · rw [map_cons, map_cons, hnames]
      · intro m' j' hm' hj'
        rcases mem_cons.mp hm' with rfl | hm'
        · rcases mem_cons.mp hj' with e | hj'
          · obtain rfl := (Prod.mk.inj e).2
            exact he
          · exact absurd hj' (hother j')
        · rcases mem_cons.mp hj' with e | hj'
          · exact absurd (mem_map_of_mem hm') ((Prod.mk.inj e).1 ▸ hfresh)
          · exact hes m' j' hm' hj'

/-- What one pointer adds to an object. -/
theorem added_one (ho : o.Sound d) (hp : p ∈ o.paths) (names : List (List Char)) :
    (⟨o.changes, [p]⟩ : Overlay).added (pointerTo path) names = [] ∧
        (∀ x, Inserts o.changes path names x → x.2.pointer ≠ p) ∨
      ∃ x t j, (⟨o.changes, [p]⟩ : Overlay).added (pointerTo path) names = [Str.ofText t] ∧
        WrittenMember t (x.1, j) ∧ j.node = x.2.root d ∧
        Inserts o.changes path names x ∧ x.2.pointer = p := by
  have hsome : ∀ q, (⟨o.changes, [p]⟩ : Overlay).find q = o.find q := fun _ => rfl
  -- the pointer of a new member is just below the path
  have hbelow : ∀ x, Inserts o.changes path names x →
      x.2.pointer = pointerTo path ++ slash :: escape (.ofText x.1) := by
    rintro x ⟨-, hx, -⟩
    rw [hx, pointerTo_concat, pointer]
  simp only [Overlay.added, filterMap_cons, filterMap_nil, hsome]
  by_cases hcond : p ∈ names.map (fun name => pointer (pointerTo path) (.ofText name)) ∨
      ¬(pointerTo path ++ [slash]).isPrefixOf p
  · rw [if_pos hcond]
    refine .inl ⟨rfl, ?_⟩
    rintro x hx rfl
    rcases hcond with hname | hprefix
    · obtain ⟨name, hname, e⟩ := mem_map.mp hname
      rw [hx.2.1, ← pointerTo_concat] at e
      have := append_cancel_left (pointerTo_injective e)
      exact hx.2.2.2 (Str.ofText_injective (singleton_inj.mp this) ▸ hname)
    · rw [hbelow x hx, isPrefixOf_iff_prefix] at hprefix
      exact hprefix ⟨escape (.ofText x.1), by simp⟩
  · rw [if_neg hcond]
    rw [not_or, not_not] at hcond
    obtain ⟨rest, rfl⟩ := isPrefixOf_iff_prefix.mp hcond.2
    rw [append_assoc, singleton_append] at hp hcond ⊢
    rw [show (pointerTo path ++ slash :: rest).drop ((pointerTo path).length + 1) = rest by
      simp [drop_append]]
    by_cases hslash : slash ∈ rest
    · rw [if_pos hslash]
      refine .inl ⟨rfl, fun x hx e => ?_⟩
      rw [hbelow x hx] at e
      obtain rfl := (List.cons.inj (append_cancel_left e)).2
      exact slash_not_mem_escape _ hslash
    · obtain ⟨name, c, hname, hsane, hpointer, hfind⟩ := ho.fits.exists_name hslash hp
      rw [if_neg hslash, hname, Option.getD_some, hpointer, hfind]
      obtain ⟨hc, hcp⟩ := ho.find_eq_some.mp hfind
      cases hr : c.remove with
      | true =>
        refine .inl ⟨by simp [hr], fun x hx e => ?_⟩
        have := ho.find_eq_some.mpr ⟨hx.1, e⟩
        rw [hfind] at this
        cases this
        rw [hx.2.2.1] at hr
        cases hr
      | false =>
        obtain ⟨u, j, hu, hj, hnode⟩ := ho.exists_written hc hr
        refine .inr ⟨(name.sane, c), marshal name ++ ':' :: u, j, by simp [hr, hu],
          ⟨name, u, rfl, rfl, hj⟩, hnode, ⟨hc, ?_, hr, ?_⟩, hcp⟩
        · rw [hsane, pointerTo_concat, hpointer, hcp]
        · intro hmem
          refine hcond.1 (mem_map.mpr ⟨name.sane, hmem, ?_⟩)
          rw [hsane, hpointer]

/-- The members that are added to an object are those of the changes that insert one. -/
theorem added_written (ho : o.Sound d) (path : List Str) (names : List (List Char))
    {ps : List Str} (hps : ∀ p ∈ ps, p ∈ o.paths) :
    ∃ (ts : List (List Char)) (xs : List (List Char × Json)) (new : List (List Char × Change)),
      (⟨o.changes, ps⟩ : Overlay).added (pointerTo path) names = ts.map Str.ofText ∧
      List.Forall₂ WrittenMember ts xs ∧
      xs.map (fun x => (x.1, x.2.node)) = new.map (fun x => (x.1, x.2.root d)) ∧
      (∀ x, x ∈ new ↔ Inserts o.changes path names x ∧ x.2.pointer ∈ ps) ∧
      (new.map fun x => x.2.pointer).Sublist ps := by
  induction ps with
  | nil => exact ⟨[], [], [], rfl, .nil, rfl, by simp, .slnil⟩
  | cons p ps ih =>
    obtain ⟨hp, hps⟩ := forall_mem_cons.mp hps
    obtain ⟨ts, xs, new, hts, hxs, hnodes, hnew, hsub⟩ := ih hps
    have hsplit : (⟨o.changes, p :: ps⟩ : Overlay).added (pointerTo path) names =
        (⟨o.changes, [p]⟩ : Overlay).added (pointerTo path) names ++
          (⟨o.changes, ps⟩ : Overlay).added (pointerTo path) names :=
      filterMap_append (l := [p])
    rw [hsplit, hts]
    rcases ho.added_one hp names with ⟨hnil, hno⟩ | ⟨x, t, j, hone, ht, hj, hx, rfl⟩
    · refine ⟨ts, xs, new, by rw [hnil, nil_append], hxs, hnodes, ?_, hsub.cons p⟩
      intro x
      rw [hnew, mem_cons]
      refine and_congr_right fun hx => (or_iff_right (hno x hx)).symm
    · refine ⟨t :: ts, (x.1, j) :: xs, x :: new, by rw [hone]; rfl, .cons ht hxs, ?_, ?_,
        hsub.cons_cons _⟩
      · rw [map_cons, map_cons, hnodes, hj]
      · intro y
        rw [mem_cons, mem_cons, hnew]
        constructor
        · rintro (rfl | ⟨hy, hmem⟩)
          · exact ⟨hx, .inl rfl⟩
          · exact ⟨hy, .inr hmem⟩
        · rintro ⟨hy, e | hmem⟩
          · -- one pointer has one change, and one name
            left
            have hc : y.2 = x.2 := by
              have h₁ := ho.find_eq_some.mpr ⟨hy.1, e⟩
              exact Option.some.inj (h₁.symm.trans (ho.find_eq_some.mpr ⟨hx.1, rfl⟩))
            have hname := append_cancel_left
              (pointerTo_injective (hy.2.1.symm.trans (e.trans hx.2.1)))
            exact Prod.ext (Str.ofText_injective (singleton_inj.mp hname)) hc
          · exact .inr ⟨hy, hmem⟩

theorem inserts_nodup {names : List (List Char)} {new : List (List Char × Change)}
    (hnew : ∀ x ∈ new, Inserts o.changes path names x)
    (hsorted : new.Pairwise fun x y => x.2.pointer.bytes < y.2.pointer.bytes) :
    (new.map Prod.fst).Nodup := by
  rw [List.Nodup, pairwise_map]
  refine hsorted.imp_of_mem fun {x y} hx hy hlt e => ?_
  have hsame : x.2.pointer = y.2.pointer := by rw [(hnew x hx).2.1, (hnew y hy).2.1, e]
  rw [hsame] at hlt
  exact List.lt_irrefl _ hlt

/-- What is written for a value is the text of the edited value. -/
theorem render_written (ho : o.Sound d) (n : Node) (path)
    (hwalk : walk Node.child d.root path = some n) (hn : Parsed n)
    (hkeep : (o.find (pointerTo path)).any Change.remove = false) :
    ∃ t j, n.render o (pointerTo path) = .ofText t ∧ Written t j ∧
        Edited d o.changes path n j.node := by
  induction n using Node.induct generalizing path with
  | scalar k raw =>
    refine ho.place_written hn hkeep fun _ habove => ?_
    exact absurd rfl (ho.fits.below hwalk (ho.below_iff.mpr habove) k raw hn)
  | array raw ns ih =>
    refine ho.place_written hn hkeep fun hnone habove => ?_
    obtain ⟨ts, js, hts, hjs, hlen, hes⟩ := elements_written d o path
      fun k n (hget : ns[k]? = some n) => by
        have hmem := mem_of_getElem? hget
        rw [Nat.zero_add k]
        refine ih n hmem _ ?_ (hn.elements n hmem) (ho.fits.keeps_element hwalk _)
        rw [walk_concat, hwalk, Option.bind_some, Node.child, index_ofNat, Option.bind_some, hget]
    obtain ⟨raw', j, hj, hnode⟩ := exists_array hjs
    refine ⟨_, j, by rw [hts, enclose_ofText], hj, ?_⟩
    rw [hnode]
    refine .array hnone habove (by rw [length_map, hlen]) fun i n n' hn' hi => ?_
    rw [getElem?_map] at hi
    obtain ⟨j', hj', rfl⟩ := Option.map_eq_some_iff.mp hi
    have := hes i n j' hn' hj'
    rwa [Nat.zero_add] at this
  | object raw ms ih =>
    refine ho.place_written hn hkeep fun hnone habove => ?_
    obtain ⟨hparsed, hnodup⟩ := hn.members
    obtain ⟨ts, xs, hts, hxs, hnames, hes⟩ := members_written d o path hnodup
      fun m (hm : m ∈ ms) hk => by
        refine ih m hm _ ?_ (hparsed m hm) (by simpa [Overlay.keeps] using hk)
        rw [walk_concat, hwalk, Option.bind_some, child_member hnodup hm]
    obtain ⟨us, ys, new, hus, hys, hnodes, hnew, hsub⟩ :=
      ho.added_written path (ms.map Prod.fst) fun p hp => hp
    have hsorted := pairwise_map.mp (ho.sorted.sublist hsub)
    have hinserts : ∀ x ∈ new, Inserts o.changes path (ms.map Prod.fst) x :=
      fun x hx => ((hnew x).mp hx).1
    have hadded : ys.map Prod.fst = new.map Prod.fst := by
      have := congrArg (List.map Prod.fst) hnodes
      rw [map_map, map_map] at this
      exact this
    have hdistinct : ((xs ++ ys).map Prod.fst).Nodup := by
      rw [map_append, hnames, hadded]
      refine List.Nodup.append (hnodup.sublist (filter_sublist.map _))
        (inserts_nodup hinserts hsorted) ?_
      intro name hold hnew'
      obtain ⟨x, hx, rfl⟩ := mem_map.mp hnew'
      exact (hinserts x hx).2.2.2 ((filter_sublist.map Prod.fst).subset hold)
    obtain ⟨raw', j, hj, hnode⟩ := exists_object (rel_append hxs hys) hdistinct
    refine ⟨_, j, by rw [hts, hus, ← map_append, enclose_ofText], hj, ?_⟩
    rw [hnode, map_append, hnodes]
    refine .object hnone habove ?_ ?_ ?_ hsorted
    · have hkeeps : survives o.changes path = o.keeps path := funext ho.survives_eq
      rw [hkeeps, ← hnames, map_map]
      rfl
    · intro m n' hm hn'
      obtain ⟨⟨name, j'⟩, hj', e⟩ := mem_map.mp hn'
      cases e
      exact hes m j' hm hj'
    · intro x
      rw [hnew]
      exact and_iff_left_of_imp fun hx => ho.listed _ hx.1

end Overlay.Sound

end Olp.Oif
