import Olp.Oif.Reading

/-!
# The texts of values

What the parser reads from the text of a value, put together over containers: the text of an
array from the texts of its elements, that of an object from those of its members.  Every value
that was parsed is read back from its own text (`value_local`).
-/

namespace Olp.Oif

open List

/-! ## Containers -/

section Container

variable {ι α : Type} {item : ι → List α → Cursor → Except Fault (α × Cursor)} {close : Char}
  {unclosed : SourceCode} {cs w r : List Char} {Q : List α → Prop}

variable {l : List α} {s s' : Cursor}

theorem container_eq_ok {one : List α → Cursor → Except Fault (α × Cursor)}
    (h : container one close unclosed s = .ok (l, s')) :
    l = [] ∧ space s.rest = close :: s'.rest ∨
      (∀ t, space s.rest ≠ close :: t) ∧ ∃ fuel,
        sequence one close unclosed (fuel + 1) [] ⟨space s.rest, s.nodes⟩ = .ok (l, s') := by
  revert h
  fun_cases container <;> grind

variable (item close unclosed) in
/-- The items of a container that is read from a text that starts with `c` have `Q`, and the
container ends where `c` does. -/
def Closes (c : List Char) (Q : List α → Prop) : Prop :=
  ∀ i s l s' r, s.rest = c ++ r → container (item i) close unclosed s = .ok (l, s') →
    Q l ∧ s'.rest = r

theorem closes_empty (hw : Blank w) (hc : isSpace close = false) :
    Closes item close unclosed (w ++ [close]) (· = []) := by
  intro i s l s' r hs h
  have hspace : space s.rest = close :: r := by
    rw [hs, append_assoc, space_append hw, singleton_append, space_cons hc]
  rcases container_eq_ok h with ⟨rfl, he⟩ | ⟨hne, -⟩
  · rw [hspace] at he
    exact ⟨rfl, (List.cons.inj he).2.symm⟩
  · exact absurd hspace (hne r)

theorem ReadsAll.closes (hall : ReadsAll item close unclosed cs Q)
    (hitem : ∀ i done s, item i done s = item i done ⟨space s.rest, s.nodes⟩)
    (hopen : ∃ x u, space cs = x :: u ∧ x ≠ close) (hw : Blank w) :
    Closes item close unclosed (w ++ cs) Q := by
  intro i s l s' r hs h
  obtain ⟨x, u, hu, hx⟩ := hopen
  have hspace : space s.rest = space (cs ++ r) := by rw [hs, append_assoc, space_append hw]
  have hhead : space (cs ++ r) = x :: (u ++ r) := by
    obtain ⟨v, hv, e⟩ := exists_blank cs
    rw [e, append_assoc, space_append hv, hu, cons_append, space_cons (space_eq_cons hu)]
  rcases container_eq_ok h with ⟨-, he⟩ | ⟨-, fuel, hseq⟩
  · rw [hspace, hhead] at he
    exact absurd (List.cons.inj he).1 hx
  · have hseq' :
        sequence (item i) close unclosed (fuel + 1) [] ⟨cs ++ r, s.nodes⟩ = .ok (l, s') := by
      rw [← hseq, sequence, sequence, hitem i [] ⟨cs ++ r, s.nodes⟩,
        hitem i [] ⟨space s.rest, s.nodes⟩, hspace, space_space]
    obtain ⟨l', rfl, hq, hr⟩ := hall i _ [] _ _ s' r rfl hseq'
    exact ⟨hq, hr⟩

end Container

/-! ## Values -/

/-- `value` as the item of an array, for every limit. -/
abbrev element (i : ℕ × ℕ) (_ : List Node) (s : Cursor) : Except Fault (Node × Cursor) :=
  value i.1 i.2 s

/-- `member` as the item of an object, for every limit. -/
abbrev field (i : ℕ × ℕ) : List (List Char × Node) → Cursor →
    Except Fault ((List Char × Node) × Cursor) := member (value i.1 i.2)

theorem element_space (i : ℕ × ℕ) (done : List Node) (s : Cursor) :
    element i done s = element i done ⟨space s.rest, s.nodes⟩ := by
  obtain ⟨m, d⟩ := i
  cases d <;> simp [element, value]

theorem field_space (i : ℕ × ℕ) (done : List (List Char × Node)) (s : Cursor) :
    field i done s = field i done ⟨space s.rest, s.nodes⟩ := by
  unfold field member
  rw [space_space]

/-- A text from which a value with `P` is read, and which opens no other thing. -/
structure IsValue (c : List Char) (P : Node → Prop) : Prop where
  opens : ∃ x t, space c = x :: t ∧ x ≠ ']'
  reads : Reads element c P

theorem IsValue.mono {c : List Char} {P P' : Node → Prop} (h : IsValue c P)
    (hP : ∀ n, P n → P' n) : IsValue c P' := ⟨h.opens, h.reads.mono hP⟩

variable {P : Node → Prop} {c : List Char}

theorem IsValue.pad {w v : List Char} (h : IsValue c P) (hw : Blank w) (hv : Blank v) :
    IsValue (w ++ c ++ v) P where
  opens := by
    obtain ⟨x, t, ht, hx⟩ := h.opens
    obtain ⟨b, hb, e⟩ := exists_blank c
    refine ⟨x, t ++ v, ?_, hx⟩
    rw [append_assoc, space_append hw, e, append_assoc, space_append hb, ht,
      cons_append, space_cons (space_eq_cons ht)]
  reads := by
    intro i done s a s' r hs hr ha
    have hrest : space s.rest = space (c ++ (v ++ r)) := by
      rw [hs, append_assoc, append_assoc, space_append hw]
    rw [element_space, hrest] at ha
    have ha' : element i done ⟨c ++ (v ++ r), s.nodes⟩ = .ok (a, s') := by
      rw [element_space]
      exact ha
    obtain ⟨hp, hs'⟩ := h.reads i done _ a s' (v ++ r) rfl (blank_delimited hv hr) ha'
    exact ⟨hp, hs'.trans (space_append hv)⟩

variable {d m : ℕ} {n : Node}

/-- What a value that was read starts with. -/
def Opened (m d nodes : ℕ) (c : Char) (t : List Char) (n : Node) (s' : Cursor) : Prop :=
  c = '\x7b' ∧ (∃ ms, n = .object (upTo (c :: t) s'.rest) ms ∧
      container (member (value m d)) '\x7d' .expectedObjectEnd ⟨t, nodes + 1⟩ = .ok (ms, s')) ∨
    c = '[' ∧ (∃ ns, n = .array (upTo (c :: t) s'.rest) ns ∧
      container (fun _ => value m d) ']' .expectedArrayEnd ⟨t, nodes + 1⟩ = .ok (ns, s')) ∨
    c ≠ '\x7b' ∧ c ≠ '[' ∧ ∃ k, n = .scalar k (upTo (c :: t) s'.rest) ∧
      scalar c (c :: t) = .ok (k, s'.rest)

variable {s s' : Cursor} {done : List (List Char × Node)}

theorem value_eq_ok (h : value m d s = .ok (n, s')) :
    ∃ d' c t, d = d' + 1 ∧ space s.rest = c :: t ∧ Opened m d' s.nodes c t n s' := by
  cases d with
  | zero => cases h
  | succ d' =>
    rw [value] at h
    split at h
    · cases h
    · split at h
      · cases h
      · rename_i c t hs
        refine ⟨d', c, t, rfl, hs, ?_⟩
        split at h
        · rename_i hc
          rw [bind_eq_ok] at h
          obtain ⟨⟨ms, u⟩, hms, h⟩ := h
          cases h
          exact .inl ⟨hc, ms, rfl, hms⟩
        · rename_i hobj
          split at h
          · rename_i hc
            rw [bind_eq_ok] at h
            obtain ⟨⟨ns, u⟩, hns, h⟩ := h
            cases h
            exact .inr (.inl ⟨hc, ns, rfl, hns⟩)
          · rename_i harr
            rw [bind_eq_ok] at h
            obtain ⟨⟨k, u⟩, hk, h⟩ := h
            cases h
            exact .inr (.inr ⟨hobj, harr, k, rfl, hk⟩)

theorem IsValue.of_opening {x : Char} (hx : isSpace x = false) (hx' : x ≠ ']')
    (h : ∀ m d k n s' r, Delimited r → Opened m d k x (c ++ r) n s' →
      P n ∧ space s'.rest = space r) : IsValue (x :: c) P where
  opens := ⟨x, c, space_cons hx, hx'⟩
  reads := by
    intro i done s n s' r hs hr hn
    obtain ⟨d, y, t, -, ht, hopened⟩ := value_eq_ok hn
    rw [hs, cons_append, space_cons hx] at ht
    cases ht
    exact h i.1 d s.nodes n s' r hr hopened

theorem isValue_scalar {x : Char} {k : Kind} (hx : isSpace x = false) (hobj : x ≠ '\x7b')
    (harr : x ≠ '[') (hclose : x ≠ ']')
    (h : ∀ r, Delimited r → scalar x (x :: c ++ r) = .ok (k, r)) :
    IsValue (x :: c) (· = .scalar k (x :: c)) := by
  refine .of_opening hx hclose ?_
  rintro m d _ n s' r hr (⟨e, -⟩ | ⟨e, -⟩ | ⟨-, -, k', rfl, hk⟩)
  · exact absurd e hobj
  · exact absurd e harr
  · rw [← cons_append, h r hr] at hk
    obtain ⟨rfl, e⟩ := Prod.mk.inj (Except.ok.inj hk)
    rw [← e, ← cons_append, upTo_append]
    exact ⟨rfl, rfl⟩

theorem Closes.array {Q : List Node → Prop} (h : Closes element ']' .expectedArrayEnd c Q) :
    IsValue ('[' :: c) fun n => ∃ ns, n = .array ('[' :: c) ns ∧ Q ns := by
  refine .of_opening (by decide) (by decide) ?_
  rintro m d _ n s' r hr (⟨e, -⟩ | ⟨-, ns, rfl, hns⟩ | ⟨-, e, -⟩)
  · exact absurd e (by decide)
  · obtain ⟨hq, rfl⟩ := h (m, d) _ ns s' r rfl hns
    rw [← cons_append, upTo_append]
    exact ⟨⟨ns, rfl, hq⟩, rfl⟩
  · exact absurd rfl e

theorem Closes.object {Q : List (List Char × Node) → Prop}
    (h : Closes field '\x7d' .expectedObjectEnd c Q) :
    IsValue ('\x7b' :: c) fun n => ∃ ms, n = .object ('\x7b' :: c) ms ∧ Q ms := by
  refine .of_opening (by decide) (by decide) ?_
  rintro m d _ n s' r hr (⟨-, ms, rfl, hms⟩ | ⟨e, -⟩ | ⟨e, -⟩)
  · obtain ⟨hq, rfl⟩ := h (m, d) _ ms s' r rfl hms
    rw [← cons_append, upTo_append]
    exact ⟨⟨ms, rfl, hq⟩, rfl⟩
  · exact absurd e (by decide)
  · exact absurd rfl e

/-! ## Members -/

theorem member_eq_ok {child : Cursor → Except Fault (Node × Cursor)} {m : List Char × Node}
    (h : member child done s = .ok (m, s')) :
    ∃ u v, string (space s.rest) = .ok u ∧ m.1 = memberName (upTo (space s.rest) u) ∧
      space u = ':' :: v ∧ child ⟨v, s.nodes⟩ = .ok (m.2, s') := by
  unfold member at h
  simp only [bind_eq_ok, require_eq_ok] at h
  obtain ⟨u, hu, _, -, h⟩ := h
  split at h
  · cases h
  · rename_i c v hv
    split at h
    · rename_i hc
      subst hc
      rw [bind_eq_ok] at h
      obtain ⟨⟨n, s₁⟩, hn, h⟩ := h
      cases h
      exact ⟨u, v, hu, rfl, hv, hn⟩
    · cases h

theorem reads_field {w v key : List Char} (hw : Blank w) (hv : Blank v)
    (hkey : Takes string (fun _ => True) ('"' :: key)) (h : IsValue c P) :
    Reads field (w ++ ('"' :: key ++ (v ++ ':' :: c)))
      fun m => m.1 = memberName ('"' :: key) ∧ P m.2 := by
  intro i done s m s' r hs hr hm
  obtain ⟨u, t, hu, hname, ht, hchild⟩ := member_eq_ok hm
  have hspace : space s.rest = '"' :: key ++ (v ++ ':' :: (c ++ r)) := by
    rw [hs]
    simp only [append_assoc, cons_append]
    rw [space_append hw, space_cons (by decide)]
  rw [hspace, hkey _ trivial] at hu
  cases hu
  rw [space_append hv, space_cons (by decide)] at ht
  obtain rfl := (List.cons.inj ht).2
  obtain ⟨hp, hs'⟩ := h.reads i [] _ m.2 s' r rfl hr hchild
  rw [hspace, upTo_append] at hname
  exact ⟨⟨hname, hp⟩, hs'⟩

/-! ## Every value is read from its own text -/

/-- A value is read from the text it was written as. -/
def Local (m d : ℕ) : Prop :=
  ∀ s n s', value m d s = .ok (n, s') → space s.rest = n.raw ++ s'.rest ∧ IsValue n.raw (· = n)

theorem Local.element (h : Local m d) (hn : value m d s = .ok (n, s')) :
    ∃ c, s.rest = c ++ s'.rest ∧ IsValue c (· = n) := by
  obtain ⟨hs, hv⟩ := h s n s' hn
  obtain ⟨w, hw, e⟩ := exists_blank s.rest
  have hpad := hv.pad (v := []) hw fun c hc => absurd hc not_mem_nil
  rw [append_nil] at hpad
  exact ⟨w ++ n.raw, by rw [e, hs, append_assoc], hpad⟩

variable {a : List Char × Node} {unclosed : SourceCode}

theorem Local.field {m d : ℕ} (h : Local m d) (ha : member (value m d) done s = .ok (a, s')) :
    ∃ c, s.rest = c ++ s'.rest ∧ Reads field c (· = a) := by
  obtain ⟨u, v, hu, hname, hv, hchild⟩ := member_eq_ok ha
  obtain ⟨key, hkey, htakes⟩ := string_takes hu
  obtain ⟨c, rfl, hc⟩ := h.element hchild
  obtain ⟨w, hw, es⟩ := exists_blank s.rest
  obtain ⟨b, hb, eu⟩ := exists_blank u
  refine ⟨w ++ ('"' :: key ++ (b ++ ':' :: c)), ?_, (reads_field hw hb htakes hc).mono ?_⟩
  · rw [es, hkey, eu, hv]
    simp
  · rintro ⟨name, n⟩ ⟨rfl, rfl⟩
    rw [hkey, upTo_append] at hname
    exact Prod.ext hname.symm rfl

theorem container_local {ι α : Type} {item : ι → List α → Cursor → Except Fault (α × Cursor)}
    {close : Char} {i : ι}
    (hspace : ∀ i done s, item i done s = item i done ⟨space s.rest, s.nodes⟩)
    (hitem : ∀ done s a s', item i done s = .ok (a, s') →
      ∃ c, s.rest = c ++ s'.rest ∧ Reads item c (· = a)) (hc : isSpace close = false)
    (hg : goesOn close = false) (hcomma : close ≠ ',') {l : List α}
    (h : container (item i) close unclosed s = .ok (l, s')) :
    ∃ c, s.rest = c ++ s'.rest ∧ Closes item close unclosed c (· = l) := by
  obtain ⟨w, hw, e⟩ := exists_blank s.rest
  rcases container_eq_ok h with ⟨rfl, he⟩ | ⟨hne, fuel, hseq⟩
  · refine ⟨w ++ [close], ?_, closes_empty hw hc⟩
    rw [e, he]
    simp
  · obtain ⟨cs, l', hcs, hs, rfl, hall⟩ := sequence_local hitem hc hg hcomma hseq
    obtain ⟨x, u, rfl⟩ := exists_cons_of_ne_nil hcs
    refine ⟨w ++ x :: u, ?_, hall.closes hspace ⟨x, u, space_cons (space_eq_cons hs), ?_⟩ hw⟩
    · rw [e, append_assoc]
      exact congrArg (w ++ ·) hs
    · rintro rfl
      exact hne _ hs

theorem value_local (m d : ℕ) : Local m d := by
  induction d with
  | zero =>
    intro s n s' h
    cases h
  | succ d ih =>
    intro s n s' h
    obtain ⟨_, c, t, hd, hs, hcase⟩ := value_eq_ok h
    obtain rfl := Nat.succ.inj hd
    rcases hcase with ⟨rfl, ms, rfl, hms⟩ | ⟨rfl, ns, rfl, hns⟩ | ⟨hobj, harr, k, rfl, hk⟩
    · obtain ⟨c, rfl, hc⟩ := container_local field_space (i := (m, d))
        (fun _ _ _ _ ha => ih.field ha) (by decide) (by decide) (by decide) hms
      rw [hs, Node.raw, ← cons_append, upTo_append]
      refine ⟨rfl, hc.object.mono ?_⟩
      rintro _ ⟨_, rfl, rfl⟩
      rfl
    · obtain ⟨c, rfl, hc⟩ := container_local element_space (i := (m, d))
        (fun _ _ _ _ hn => (ih.element hn).imp fun _ h => ⟨h.1, h.2.reads⟩)
        (by decide) (by decide) (by decide) hns
      rw [hs, Node.raw, ← cons_append, upTo_append]
      refine ⟨rfl, hc.array.mono ?_⟩
      rintro _ ⟨_, rfl, rfl⟩
      rfl
    · have hclose : c ≠ ']' := by
        rintro rfl
        simp [scalar, number, skip, whole, Except.map, bind, Except.bind] at hk
      obtain ⟨w, rfl, hw⟩ := scalar_takes hk
      rw [hs, Node.raw, ← cons_append, upTo_append]
      exact ⟨rfl, isValue_scalar (space_eq_cons hs) hobj harr hclose hw⟩

/-- The bound on the number of items is never met when the text that is left is shorter. -/
theorem sequence_fuel {α : Type} {one : List α → Cursor → Except Fault (α × Cursor)} {close : Char}
    (hone : ∀ done s a s', one done s = .ok (a, s') → s'.rest.length ≤ s.rest.length) :
    ∀ {fuel fuel' : ℕ} {done : List α} {s : Cursor}, s.rest.length < fuel → s.rest.length < fuel' →
      sequence one close unclosed fuel done s = sequence one close unclosed fuel' done s := by
  intro fuel
  induction fuel with
  | zero =>
    intro fuel' done s h
    exact absurd h (Nat.not_lt_zero _)
  | succ f ih =>
    intro fuel' done s h h'
    obtain ⟨f', rfl⟩ := Nat.exists_eq_succ_of_ne_zero (Nat.ne_zero_of_lt h')
    rw [sequence, sequence]
    cases ha : one done s with
    | error e => rfl
    | ok a =>
      obtain ⟨a, u⟩ := a
      have hu := hone done s a u ha
      simp only [bind, Except.bind]
      cases hs : space u.rest with
      | nil => rfl
      | cons c t =>
        have ht : t.length < u.rest.length := by
          have := (dropWhile_sublist isSpace (l := u.rest)).length_le
          rw [← space, hs, length_cons] at this
          omega
        have hrest : sequence one close unclosed f (done ++ [a]) ⟨t, u.nodes⟩ =
            sequence one close unclosed f' (done ++ [a]) ⟨t, u.nodes⟩ :=
          ih (by dsimp only; omega) (by dsimp only; omega)
        dsimp only
        rw [hrest]

theorem value_shortens (h : value m d s = .ok (n, s')) : s'.rest.length ≤ s.rest.length := by
  obtain ⟨c, e, -⟩ := (value_local m d).element h
  rw [e, length_append]
  exact Nat.le_add_left _ _

theorem member_shortens (h : member (value m d) done s = .ok (a, s')) :
    s'.rest.length ≤ s.rest.length := by
  obtain ⟨c, e, -⟩ := (value_local m d).field h
  rw [e, length_append]
  exact Nat.le_add_left _ _

theorem Document.isValue_text (d : Document) : IsValue d.text (· = d.root) := by
  have h := d.parsed
  unfold parseText at h
  rw [bind_eq_ok] at h
  obtain ⟨⟨n, s⟩, hn, h⟩ := h
  simp only [bind_eq_ok, require_eq_ok] at h
  obtain ⟨_, hend, h⟩ := h
  cases h
  obtain ⟨c, e, hc⟩ := (value_local _ _).element hn
  obtain ⟨w, hw, hs⟩ := exists_blank s.rest
  rw [hend, append_nil] at hs
  dsimp only at e
  rw [e, hs]
  have := hc.pad (w := []) (fun c hc => absurd hc not_mem_nil) hw
  rwa [nil_append] at this

theorem IsValue.root {d : Document} {P : Node → Prop} (h : IsValue d.text P) : P d.root := by
  have hp := d.parsed
  unfold parseText at hp
  rw [bind_eq_ok] at hp
  obtain ⟨⟨n, s⟩, hn, hp⟩ := hp
  simp only [bind_eq_ok, require_eq_ok] at hp
  obtain ⟨_, -, hp⟩ := hp
  cases hp
  exact (h.reads (_, _) [] ⟨d.text, 0⟩ d.root s [] (append_nil _).symm (avoids_nil _) hn).1

end Olp.Oif
