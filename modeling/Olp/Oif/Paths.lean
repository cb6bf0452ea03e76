import Olp.Oif.Projection

/-!
# Paths and the pointers built from them

A path goes down a value by member names and array indices (`Reaches`).  The pointer that
`Pointer` builds from it, step by step, looks up the value at its end, no other path of the
document has the same pointer, and a lookup resolves no other pointers.
-/

namespace Olp.Oif

open List Option

/-! ## Paths -/

/-- A step down a value. -/
inductive Step where
  | name (t : List Char)
  | index (i : ℕ)
deriving DecidableEq, Repr

/-- The reference token of a step; an index is written by `strconv.Itoa`. -/
def Step.token : Step → Str
  | .name t => .ofText t
  | .index i => .ofText (Text.ofNat i)

/-- `Reaches n path v`: the path leads from `n` to `v`. -/
inductive Reaches : Node → List Step → Node → Prop
  | /-- The empty path stays. -/
    here (n : Node) : Reaches n [] n
  | /-- A name leads to a member. -/
    member {raw : List Char} {ms : List (List Char × Node)} {t : List Char} {m v : Node}
      {path : List Step} : (t, m) ∈ ms → Reaches m path v →
      Reaches (.object raw ms) (.name t :: path) v
  | /-- An index leads to an element. -/
    element {raw : List Char} {ns : List Node} {i : ℕ} {m v : Node} {path : List Step} :
      ns[i]? = some m → Reaches m path v → Reaches (.array raw ns) (.index i :: path) v

/-- The pointer of a path, built by `Pointer` from the root. -/
def pointerOf (path : List Step) : Str := path.foldl (fun p s => pointer p s.token) []

theorem pointerOf_eq (path : List Step) : pointerOf path = pointerTo (path.map Step.token) := by
  induction path using List.reverseRecOn with
  | nil => rfl
  | append_singleton path s ih =>
    rw [pointerOf, foldl_append, map_append, map_singleton, pointerTo_concat, ← ih]
    rfl

/-! ## From paths to values -/

theorem child_index {raw : List Char} {ns : List Node} (i : ℕ) :
    (Node.array raw ns).child (Step.index i).token = ns[i]? := by
  rw [Step.token, Node.child, index_ofNat, bind_some]

variable {n v : Node}

/-- Every value is found again by the tokens of its path. -/
theorem Reaches.walk {path : List Step} (h : Reaches n path v) (hn : Parsed n) :
    walk Node.child n (path.map Step.token) = some v := by
  induction h with
  | here n => rfl
  | member hmem _ ih =>
    obtain ⟨hms, hnodup⟩ := hn.members
    rw [map_cons, walk_cons, Step.token, child_member hnodup hmem, bind_some]
    exact ih (hms _ hmem)
  | element hi _ ih =>
    rw [map_cons, walk_cons, child_index, hi, bind_some]
    exact ih (hn.elements _ (mem_of_getElem? hi))

/-- Whatever the tokens find is reached by a path. -/
theorem exists_reaches {tokens : List Str} (h : walk Node.child n tokens = some v) :
    ∃ path, path.map Step.token = tokens ∧ Reaches n path v := by
  induction tokens generalizing n v with
  | nil =>
    cases h
    exact ⟨[], rfl, .here n⟩
  | cons k tokens ih =>
    obtain ⟨m, hm, hv⟩ := bind_eq_some_iff.mp h
    obtain ⟨path, rfl, hpath⟩ := ih hv
    cases n with
    | scalar kind raw => cases hm
    | array raw ns =>
      obtain ⟨i, hi, hget⟩ := bind_eq_some_iff.mp hm
      exact ⟨.index i :: path, by rw [map_cons, index_eq_some hi]; rfl, .element hget hpath⟩
    | object raw ms =>
      obtain ⟨⟨t, m'⟩, hfind, rfl⟩ := map_eq_some_iff.mp hm
      have ht : Str.ofText t = k := by simpa using find?_some hfind
      exact ⟨.name t :: path, by rw [map_cons, ← ht]; rfl,
        .member (mem_of_find?_eq_some hfind) hpath⟩

/-! ## Different paths -/

/-- A pointer determines its tokens: a solidus stands only between them. -/
theorem pointerTo_injective : Function.Injective pointerTo := by
  intro ks
  induction ks with
  | nil =>
    intro ks' h
    cases ks' with
    | nil => rfl
    | cons k' ks' => rw [pointerTo_cons] at h; cases h
  | cons k ks ih =>
    intro ks' h
    cases ks' with
    | nil => rw [pointerTo_cons] at h; cases h
    | cons k' ks' =>
      rw [pointerTo_cons, pointerTo_cons] at h
      have h := (List.cons.inj h).2
      -- the part up to the next solidus
      have htake : ∀ k ks, (escape k ++ pointerTo ks).takeWhile (· != slash) = escape k := by
        intro k ks
        have hall : ∀ x ∈ escape k, (x != slash) = true := fun x hx =>
          bne_iff_ne.mpr fun e => slash_not_mem_escape k (e ▸ hx)
        rw [takeWhile_append_of_pos hall]
        cases ks with
        | nil => simp
        | cons j ks => simp [pointerTo_cons]
      have hk : escape k = escape k' := by rw [← htake k ks, h, htake]
      have hname : k = k' := by
        have hd := decode_escape k
        rw [hk, decode_escape] at hd
        exact (some.inj hd).symm
      rw [hk] at h
      rw [hname, ih (append_cancel_left h)]

/-- Two paths of one value with the same tokens are the same: an array has only indices and an
object only names. -/
theorem Reaches.eq_of_tokens {p : List Step} (h : Reaches n p v) (hn : Parsed n) {q : List Step}
    {w : Node} (hq : Reaches n q w) (e : p.map Step.token = q.map Step.token) : p = q := by
  induction h generalizing q w with
  | here n => exact (map_eq_nil_iff.mp e.symm).symm
  | member hmem _ ih =>
    cases hq with
    | here => cases e
    | member hmem' hpath' =>
      obtain ⟨htoken, hrest⟩ := List.cons.inj e
      obtain ⟨hms, hnodup⟩ := hn.members
      obtain rfl := Str.ofText_injective htoken
      -- one name, one member
      have hsame := inj_on_of_nodup_map hnodup hmem hmem' rfl
      obtain rfl := congrArg Prod.snd hsame
      rw [ih (hms _ hmem) hpath' hrest]
  | element hi _ ih =>
    cases hq with
    | here => cases e
    | element hi' hpath' =>
      obtain ⟨htoken, hrest⟩ := List.cons.inj e
      obtain rfl := Text.ofNat_injective (Str.ofText_injective htoken)
      cases hi.symm.trans hi'
      rw [ih (hn.elements _ (mem_of_getElem? hi)) hpath' hrest]

/-! ## From pointers to paths -/

theorem intercalate_escape (k : Str) (ks : List Str) :
    [slash].intercalate ((k :: ks).map escape) = escape k ++ pointerTo ks := by
  induction ks generalizing k with
  | nil => simp [List.intercalate]
  | cons j ks ih =>
    rw [pointerTo_cons, ← ih j]
    simp [List.intercalate]

theorem slash_not_mem_splitOn (s : Str) : ∀ part ∈ s.splitOn slash, slash ∉ part := by
  induction s with
  | nil => simp
  | cons x s ih =>
    rw [splitOn_cons_eq_if_modifyHead]
    split
    · exact forall_mem_cons.mpr ⟨not_mem_nil, ih⟩
    · next hx =>
        have hne : x ≠ slash := by simpa using hx
        cases hparts : s.splitOn slash with
        | nil => exact absurd hparts (splitOn_ne_nil _ _)
        | cons part parts =>
          rw [hparts] at ih
          obtain ⟨hpart, hrest⟩ := forall_mem_cons.mp ih
          refine forall_mem_cons.mpr ⟨?_, hrest⟩
          rw [mem_cons, not_or]
          exact ⟨hne.symm, hpart⟩

theorem follow_eq_some {parts : List Str} (hs : ∀ part ∈ parts, slash ∉ part)
    (h : follow n parts = some v) :
    ∃ ks, ks.map escape = parts ∧ walk Node.child n ks = some v := by
  induction parts generalizing n v with
  | nil => exact ⟨[], rfl, h⟩
  | cons part parts ih =>
    obtain ⟨hpart, hs⟩ := forall_mem_cons.mp hs
    obtain ⟨m, hm, hv⟩ := bind_eq_some_iff.mp h
    obtain ⟨k, hk, hchild⟩ := bind_eq_some_iff.mp hm
    obtain ⟨ks, rfl, hks⟩ := ih hs hv
    refine ⟨k :: ks, ?_, ?_⟩
    · rw [map_cons, escape_of_decode hpart hk]
    · rw [walk_cons, hchild, bind_some, hks]

theorem Document.exists_tokens {d : Document} {p : Str} (h : d.lookup p = some v) :
    ∃ ks, p = pointerTo ks ∧ walk Node.child d.root ks = some v := by
  cases p with
  | nil => exact ⟨[], rfl, h⟩
  | cons x s =>
    simp only [Document.lookup] at h
    split at h
    · cases h
    · next hx =>
        obtain rfl : x = slash := not_not.mp hx
        obtain ⟨ks, hks, hw⟩ := follow_eq_some (slash_not_mem_splitOn s) h
        refine ⟨ks, ?_, hw⟩
        have hjoin : [slash].intercalate (s.splitOn slash) = s := intercalate_splitOn slash
        rw [← hks] at hjoin
        cases ks with
        | nil => exact absurd hks.symm (splitOn_ne_nil _ _)
        | cons k ks => rw [pointerTo_cons, ← intercalate_escape, hjoin]

/-- **Pointers address exactly one value.**  Along every path of a document, the pointer built from
it looks up the value at its end; two paths with one pointer are the same path; every pointer that
is looked up is built from a path to what is found; and below an array, exactly the indices of its
elements are found, as they are written without a sign or leading zeros. -/
theorem pointers_address_values (d : Document) :
    (∀ path v, Reaches d.root path v → d.lookup (pointerOf path) = some v) ∧
    (∀ p q v w, Reaches d.root p v → Reaches d.root q w → pointerOf p = pointerOf q → p = q) ∧
    (∀ p v, d.lookup p = some v → ∃ path, pointerOf path = p ∧ Reaches d.root path v) ∧
    ∀ p raw ns token, d.lookup p = some (.array raw ns) →
      ((d.lookup (pointer p token)).isSome ↔ ∃ i < ns.length, token = .ofText (Text.ofNat i)) := by
  refine ⟨?_, ?_, ?_, ?_⟩
  · intro path v h
    rw [pointerOf_eq, d.lookup_pointerTo, h.walk d.parsed_root]
  · intro p q v w hp hq h
    rw [pointerOf_eq, pointerOf_eq] at h
    exact hp.eq_of_tokens d.parsed_root hq (pointerTo_injective h)
  · intro p v h
    obtain ⟨ks, rfl, hw⟩ := Document.exists_tokens h
    obtain ⟨path, rfl, hpath⟩ := exists_reaches hw
    exact ⟨path, pointerOf_eq path, hpath⟩
  · intro p raw ns token h
    obtain ⟨ks, rfl, hw⟩ := Document.exists_tokens h
    rw [← pointerTo_concat, d.lookup_pointerTo, walk_concat, hw, bind_some]
    constructor
    · intro hsome
      obtain ⟨v, hv⟩ := isSome_iff_exists.mp hsome
      obtain ⟨i, hi, hget⟩ := bind_eq_some_iff.mp hv
      exact ⟨i, (List.getElem?_eq_some_iff.mp hget).1, index_eq_some hi⟩
    · rintro ⟨i, hi, rfl⟩
      have hchild := @child_index raw ns i
      rw [Step.token] at hchild
      rw [hchild, getElem?_eq_getElem hi]
      rfl

end Olp.Oif
