import Olp.Oif.Edits

/-!
# What an overlay does to a document

The checks of `Apply` and what they leave to be found out by parsing the document again: only its
limits.  A list of changes that passes them gives the edited tree, whatever its order; outside the
values at, above and below the changed pointers, every value keeps its text.
-/

namespace Olp.Oif

open List

/-! ## Accepted changes -/

theorem bytes_ofText (t : List Char) : (Str.ofText t).bytes = Scan.utf8 t := by
  rw [Str.bytes, Str.ofText, flatMap_map]
  rfl

theorem eq_of_bytes {p q : Str} (hp : ∃ t, p = .ofText t) (hq : ∃ t, q = .ofText t)
    (h : p.bytes = q.bytes) : p = q := by
  obtain ⟨t, rfl⟩ := hp
  obtain ⟨u, rfl⟩ := hq
  rw [bytes_ofText, bytes_ofText] at h
  rw [Scan.utf8_injective h]

theorem paths_sorted (changes : List Change) :
    (Overlay.ofChanges changes).paths.Pairwise fun p q => p.bytes ≤ q.bytes := by
  exact pairwise_insertionSort _ _

variable {changes : List Change}

theorem mem_paths {p : Str} :
    p ∈ (Overlay.ofChanges changes).paths ↔ ∃ c ∈ changes, c.pointer = p := by
  rw [Overlay.ofChanges, mem_insertionSort, mem_map]

section Accepted

variable {d : Document} {changes' : List Change}

theorem Accepted.sound (ha : Accepted d changes)
    (htext : ∀ c ∈ changes, ∃ t, c.pointer = .ofText t) :
    (Overlay.ofChanges changes).Sound d where
  fits :=
    { paths := fun _ hp => mem_paths.mp hp
      place := ha.place
      value := ha.value
      mem := fun _ _ _ _ => rfl
      text := htext }
  listed := fun c hc => mem_paths.mpr ⟨c, hc, rfl⟩
  distinct := ha.distinct
  sorted := by
    have hnodup : (Overlay.ofChanges changes).paths.Nodup :=
      (perm_insertionSort _ _).nodup_iff.mpr ha.distinct
    refine ((paths_sorted changes).and hnodup).imp_of_mem fun {p q} hp hq h => ?_
    obtain ⟨c, hc, rfl⟩ := mem_paths.mp hp
    obtain ⟨c', hc', rfl⟩ := mem_paths.mp hq
    by_contra hlt
    exact h.2 (eq_of_bytes (htext c hc) (htext c' hc') (List.le_antisymm h.1 (List.not_lt.mp hlt)))

/-! ## The order of the changes -/

theorem Accepted.perm (ha : Accepted d changes) (h : changes'.Perm changes) :
    Accepted d changes' := by
  have hmem : ∀ {c}, c ∈ changes' → c ∈ changes := fun hc => h.mem_iff.mp hc
  have hpointer : ∀ {p}, p ∈ changes'.map Change.pointer ↔ p ∈ changes.map Change.pointer :=
    (h.map _).mem_iff
  refine ⟨⟨?_, fun c hc => ha.provenance c (hmem hc), (h.map _).nodup_iff.mpr ha.distinct,
    fun c hc => ha.fresh c (hmem hc), fun c hc => ha.place c (hmem hc),
    fun c hc => ha.value c (hmem hc)⟩, h.length_eq ▸ ha.count, ?_⟩
  · rw [Change.total, (h.map _).sum_eq]
    exact ha.size
  · intro p hp q hq hmem'
    exact ha.apart p (hpointer.mp hp) q hq (hpointer.mp hmem')

/-- What is written depends on the changes by their pointers only. -/
theorem Node.render_congr {o o' : Overlay} (hpaths : o.paths = o'.paths)
    (hfind : ∀ p, o.find p = o'.find p) (n : Node) : ∀ p, n.render o p = n.render o' p := by
  have hplace : ∀ p raw contents, o.place p raw contents = o'.place p raw contents := by
    intro p raw contents
    rw [Overlay.place, Overlay.place, hfind, Overlay.below, Overlay.below, hpaths]
  have hadded : ∀ p names, o.added p names = o'.added p names := by
    intro p names
    simp only [Overlay.added, hpaths, hfind]
  induction n using Node.induct with
  | scalar k raw =>
    intro p
    rw [Node.render, Node.render, hplace, hadded]
  | array raw ns ih =>
    intro p
    have hns : ∀ i, renderElements o ns p i = renderElements o' ns p i := by
      induction ns with
      | nil => exact fun _ => rfl
      | cons n ns ihs =>
        intro i
        obtain ⟨hn, hns⟩ := forall_mem_cons.mp ih
        rw [renderElements, renderElements, hn, ihs hns]
    rw [Node.render, Node.render, hplace, hns]
  | object raw ms ih =>
    intro p
    have hms : renderMembers o ms p = renderMembers o' ms p := by
      induction ms with
      | nil => rfl
      | cons m ms ihs =>
        obtain ⟨hm, hms⟩ := forall_mem_cons.mp ih
        rw [renderMembers, renderMembers, hfind, hm, ihs hms]
    rw [Node.render, Node.render, hplace, hms, hadded]

/-- The order of accepted changes does not matter. -/
theorem Accepted.apply_perm (ha : Accepted d changes)
    (htext : ∀ c ∈ changes, ∃ t, c.pointer = .ofText t) (h : changes'.Perm changes) :
    apply d changes' = apply d changes := by
  by_cases hne : changes = []
  · subst hne
    rw [h.eq_nil]
  have hne' : changes' ≠ [] := fun e => hne (h.symm.trans (e ▸ .refl _)).eq_nil
  have htext' : ∀ c ∈ changes', ∃ t, c.pointer = .ofText t := fun c hc => htext c (h.mem_iff.mp hc)
  have ha' := ha.perm h
  rw [ha.apply_eq hne, ha'.apply_eq hne']
  have hpaths : (Overlay.ofChanges changes').paths = (Overlay.ofChanges changes).paths := by
    refine List.Perm.eq_of_pairwise (fun p q hp hq hpq hqp => ?_) (paths_sorted _)
      (paths_sorted _) ?_
    · obtain ⟨c, hc, rfl⟩ := mem_paths.mp hp
      obtain ⟨c', hc', rfl⟩ := mem_paths.mp hq
      exact eq_of_bytes (htext' c hc) (htext c' hc') (List.le_antisymm hpq hqp)
    · exact (perm_insertionSort _ _).trans ((h.map _).trans (perm_insertionSort _ _).symm)
  have hfind : ∀ p, (Overlay.ofChanges changes').find p = (Overlay.ofChanges changes).find p := by
    intro p
    refine Option.ext fun c => ?_
    rw [(ha'.sound htext').find_eq_some, (ha.sound htext).find_eq_some]
    exact and_congr_left' h.mem_iff
  rw [Node.render_congr hpaths hfind]

/-! ## The document that is parsed again -/

/-- A limit of the document on bytes, nesting or values. -/
def LimitError (e : EnvelopeError) : Prop :=
  ∃ s, e = .source s ∧ (s.code = .byteLimit ∨ s.code = .depthLimit ∨ s.code = .nodeLimit)

/-- The text of a tree is parsed as the tree, or not at all since it breaks a limit. -/
theorem Written.parse {t : List Char} {j : Json} (h : Written t j) (l : Limits) :
    (∀ e, Oif.parse (.ofText t) l = .ok e → e.root = j.node) ∧
      ∀ e, Oif.parse (.ofText t) l = .error e → LimitError e := by
  have hy := h.1.yields h.2 l.effective
  unfold Oif.parse parseJSON
  dsimp only
  split
  · refine ⟨fun e he => (by cases he), fun e he => ?_⟩
    exact ⟨_, (Except.error.inj he).symm, .inl rfl⟩
  · rw [Str.text?_ofText]
    dsimp only
    split
    · rename_i code r hr
      refine ⟨fun e he => (by cases he), fun e he => ⟨_, (Except.error.inj he).symm, .inr ?_⟩⟩
      have hfit : ¬j.Fits l.effective := fun hfit => by
        rw [hy.ok hfit] at hr
        cases hr
      obtain ⟨e', hlimit, he'⟩ := hy.stops hfit
      rw [hr] at he'
      cases he'
      exact hlimit
    · rename_i n hn
      refine ⟨fun e he => ?_, fun e he => (by cases he)⟩
      cases he
      have hfit : j.Fits l.effective := by
        by_contra hfit
        obtain ⟨e', -, he'⟩ := hy.stops hfit
        rw [hn] at he'
        cases he'
      rw [hy.ok hfit] at hn
      exact (Except.ok.inj hn).symm

/-- Accepted changes are applied where they point, or fail at a limit only. -/
theorem Accepted.apply (ha : Accepted d changes)
    (htext : ∀ c ∈ changes, ∃ t, c.pointer = .ofText t) :
    (∀ d', Oif.apply d changes = .ok d' → Edited d changes [] d.root d'.root) ∧
      ∀ e, Oif.apply d changes = .error e → LimitError e := by
  by_cases hne : changes = []
  · subst hne
    refine ⟨fun d' h => ?_, fun e h => (by cases h)⟩
    cases h
    exact .kept fun c hc => absurd hc not_mem_nil
  · have ho := ha.sound htext
    obtain ⟨t, j, ht, hj, hedited⟩ :=
      ho.render_written d.root [] rfl d.parsed_root ho.fits.keeps_root
    rw [pointerTo_nil] at ht
    rw [ha.apply_eq hne, ht]
    obtain ⟨hok, herror⟩ := hj.parse d.limits
    exact ⟨fun d' h => hok d' h ▸ hedited, herror⟩

end Accepted

/-! ## Values that are left alone -/

/-- No change is at the pointer, above it or below. -/
def Untouched (changes : List Change) (p : Str) : Prop :=
  ∀ c ∈ changes, c.pointer ≠ p ∧ ¬Above c.pointer p ∧ ¬Above p c.pointer

theorem above_pointerTo (path : List Str) (k : Str) (ks : List Str) :
    Above (pointerTo path) (pointerTo (path ++ k :: ks)) := by
  refine ⟨escape k ++ pointerTo ks, ?_⟩
  simp [pointerTo]

theorem Untouched.ne {path ks : List Str} (h : Untouched changes (pointerTo (path ++ ks)))
    {c : Change} (hc : c ∈ changes) : c.pointer ≠ pointerTo path := by
  intro e
  cases ks with
  | nil =>
    rw [append_nil] at h
    exact (h c hc).1 e
  | cons k ks =>
    refine (h c hc).2.1 ?_
    rw [e]
    exact above_pointerTo path k ks

theorem child_append {raw : List Char} {ms new : List (List Char × Node)} {k : Str} {n : Node}
    (h : (Node.object raw ms).child k = some n) :
    (Node.object raw (ms ++ new)).child k = some n := by
  obtain ⟨m, hm, rfl⟩ := Option.map_eq_some_iff.mp h
  rw [Node.child, find?_append, hm]
  rfl

/-- A value that is left alone is found where it was, with its text. -/
theorem Edited.walk {d : Document} {path : List Str} {n n' : Node}
    (h : Edited d changes path n n') :
    Parsed n → ∀ {ks : List Str} {v : Node},
      Olp.walk Node.child n ks = some v → Untouched changes (pointerTo (path ++ ks)) →
      Olp.walk Node.child n' ks = some v := by
  induction h with
  | replaced hc hpointer hr =>
    intro _ ks v _ hun
    exact absurd hpointer (hun.ne hc)
  | kept _ =>
    intro _ ks v hv _
    exact hv
  | @array path raw raw' ns ns' hnone habove hlen hes ih =>
    intro hn ks v hv hun
    cases ks with
    | nil =>
      obtain ⟨c, hc, habove⟩ := habove
      rw [append_nil] at hun
      exact absurd habove (hun c hc).2.2
    | cons k ks =>
      rw [walk_cons] at hv ⊢
      obtain ⟨m, hm, hv⟩ := Option.bind_eq_some_iff.mp hv
      obtain ⟨i, hi, hget⟩ := Option.bind_eq_some_iff.mp hm
      have hi' : i < ns'.length := hlen ▸ (List.getElem?_eq_some_iff.mp hget).1
      obtain ⟨m', hget'⟩ : ∃ m', ns'[i]? = some m' := ⟨_, getElem?_eq_getElem hi'⟩
      rw [Node.child, hi, Option.bind_some, hget', Option.bind_some]
      refine ih i m m' hget hget' (hn.elements m (mem_of_getElem? hget)) hv ?_
      rwa [← index_eq_some hi, append_assoc]
  | @object path raw raw' ms ms' new hnone habove hnames hes hnew hsorted ih =>
    intro hn ks v hv hun
    cases ks with
    | nil =>
      obtain ⟨c, hc, habove⟩ := habove
      rw [append_nil] at hun
      exact absurd habove (hun c hc).2.2
    | cons k ks =>
      obtain ⟨hparsed, hnodup⟩ := hn.members
      rw [walk_cons] at hv ⊢
      obtain ⟨n, hchild, hrest⟩ := Option.bind_eq_some_iff.mp hv
      obtain ⟨m, hm, rfl⟩ := Option.map_eq_some_iff.mp hchild
      obtain rfl : Str.ofText m.1 = k := by simpa using find?_some hm
      have hmem := mem_of_find?_eq_some hm
      rw [append_cons] at hun
      -- the member is not removed, and none that is added has its name
      have hkeep : m ∈ ms.filter (survives changes path) := by
        refine mem_filter.mpr ⟨hmem, decide_eq_true fun c hc e => ?_⟩
        exact absurd e (hun.ne hc)
      have hname := mem_map_of_mem (f := Prod.fst) hkeep
      rw [← hnames] at hname
      obtain ⟨⟨name, n'⟩, hm', rfl⟩ := mem_map.mp hname
      have hnodup' : (ms'.map Prod.fst).Nodup := by
        rw [hnames]
        exact hnodup.sublist (filter_sublist.map _)
      rw [child_append (child_member hnodup' hm'), Option.bind_some]
      exact ih m n' hmem hm' (hparsed m hmem) hrest hun

/-- **Overlays preserve the source.**  Let the pointers of the changes be valid UTF-8.  A document
that `Apply` gives is the source tree with exactly the replacements, insertions and removals of the
changes, where objects keep the order of their members and new ones follow; a value that is neither
at a changed pointer nor above or below one is where it was, with its text.  Changes that passed the
checks of `Apply` give the same in every order, and fail only at a limit. -/
theorem apply_preserves_source (d : Document) (changes : List Change)
    (htext : ∀ c ∈ changes, ∃ t, c.pointer = .ofText t) :
    (∀ d', apply d changes = .ok d' →
      Accepted d changes ∧ Edited d changes [] d.root d'.root ∧
      ∀ p v, d.lookup p = some v → Untouched changes p → d'.lookup p = some v) ∧
    (Accepted d changes →
      (∀ changes', changes'.Perm changes → apply d changes' = apply d changes) ∧
      ∀ e, apply d changes = .error e → LimitError e) := by
  refine ⟨fun d' h => ?_, fun ha => ⟨fun changes' hperm => ha.apply_perm htext hperm, ?_⟩⟩
  · have ha := accepted_of_apply h
    have hedited := (ha.apply htext).1 d' h
    refine ⟨ha, hedited, fun p v hv hun => ?_⟩
    obtain ⟨ks, rfl, hwalk⟩ := Document.exists_tokens hv
    rw [d'.lookup_pointerTo]
    exact hedited.walk d.parsed_root hwalk hun
  · exact (ha.apply htext).2

/-- A member of the sample document gets the value three. -/
def sampleChange (name : Sym) : Change :=
  ⟨[slash, name], [.char '3'], false, .identityBinding, [.char 'r']⟩

theorem apply_preserves_source_sample :
    ∃ d', apply sampleSource [sampleChange (.char 'm')] = .ok d' ∧
    d'.lookup [slash, .char 'n'] = some (.scalar .number ['2']) := by
  have hok : (apply sampleSource [sampleChange (.char 'm')]).toBool = true := by decide
  cases h : apply sampleSource [sampleChange (.char 'm')] with
  | error e =>
    rw [h] at hok
    cases hok
  | ok d' =>
    obtain ⟨hpreserves, -⟩ := apply_preserves_source sampleSource [sampleChange (.char 'm')]
      (forall_mem_singleton.mpr ⟨['/', 'm'], rfl⟩)
    obtain ⟨-, -, hkept⟩ := hpreserves d' h
    refine ⟨d', rfl, hkept _ _ rfl (forall_mem_singleton.mpr ⟨?_, ?_, ?_⟩)⟩
    · decide
    · rw [Above]
      decide
    · rw [Above]
      decide

/-- The code of an error in the text of a document. -/
def failureCode : Except EnvelopeError Document → Option SourceCode
  | .error (.source s) => some s.code
  | _ => none

/-- An object above a changed member is not at the pointer or under it and gets another text; and
two names that are not UTF-8 pass the checks, but are written as the same name. -/
theorem apply_changes_above_and_repeats :
    (∃ d' v v', apply sampleSource [sampleChange (.char 'm')] = .ok d' ∧
      (sampleChange (.char 'm')).pointer ≠ [] ∧ ¬Above (sampleChange (.char 'm')).pointer [] ∧
      sampleSource.lookup [] = some v ∧ d'.lookup [] = some v' ∧ v'.raw ≠ v.raw) ∧
    ∃ e, Accepted sampleSource [sampleChange (.stray 0xff), sampleChange (.stray 0xfe)] ∧
      apply sampleSource [sampleChange (.stray 0xff), sampleChange (.stray 0xfe)] = .error e ∧
      ¬LimitError e := by
  constructor
  · have hok : (apply sampleSource [sampleChange (.char 'm')]).toOption.any
        (fun d' => d'.root.raw != sampleSource.root.raw) = true := by decide
    cases h : apply sampleSource [sampleChange (.char 'm')] with
    | error e =>
      rw [h] at hok
      cases hok
    | ok d' =>
      rw [h] at hok
      refine ⟨d', sampleSource.root, d'.root, rfl, by decide, ?_, rfl, rfl, bne_iff_ne.mp hok⟩
      rw [Above]
      decide
  · have hfail :
      failureCode (apply sampleSource [sampleChange (.stray 0xff), sampleChange (.stray 0xfe)]) =
        some .duplicateKey := by decide
    cases h : apply sampleSource [sampleChange (.stray 0xff), sampleChange (.stray 0xfe)] with
    | ok d' =>
      rw [h] at hfail
      cases hfail
    | error e =>
      rw [h] at hfail
      refine ⟨e,
        ⟨⟨by decide, by decide, by decide, by decide, ?_, ?_⟩, by decide, by decide⟩, rfl, ?_⟩
      · exact forall_mem_cons.mpr ⟨rfl, forall_mem_singleton.mpr rfl⟩
      · exact forall_mem_cons.mpr ⟨rfl, forall_mem_singleton.mpr rfl⟩
      · rintro ⟨s, rfl, hcode⟩
        rw [Option.some.inj hfail] at hcode
        revert hcode
        decide

end Olp.Oif
