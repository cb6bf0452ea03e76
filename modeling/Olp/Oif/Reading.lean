import Olp.Oif.Tokens

/-!
# What the parser reads

The parser reads a value from the text of the value alone: when it succeeds on a text, it
reads the same from every text that starts with the part it has consumed, provided what
follows does not go on a number.  Nothing here says that it succeeds on the second text, which
may break a limit or repeat a name; a text is known by what a parser that succeeds reads
from it (`Reads`), and texts of containers are put together from those of their items.
-/

namespace Olp.Oif

/-! ## Tokens -/

theorem string_takes {t r : List Char} (h : string t = .ok r) :
    ∃ c, t = '"' :: c ++ r ∧ Takes string (fun _ => True) ('"' :: c) := by
  obtain ⟨ps, s, hs, rfl⟩ := string_eq_ok h
  exact ⟨_, rfl, quoted_takes hs⟩

theorem scalar_takes {d : Char} {t r : List Char} {k : Kind} (h : scalar d (d :: t) = .ok (k, r)) :
    ∃ c, t = c ++ r ∧ ∀ r', Delimited r' → scalar d (d :: c ++ r') = .ok (k, r') := by
  obtain ⟨s, hs, rfl, ht⟩ := scalar_eq_ok h
  obtain ⟨e, u, hu, -, htakes⟩ := hs.takes
  rw [hu] at ht
  cases ht
  exact ⟨u, rfl, htakes⟩

/-! ## Items and sequences -/

theorem blank_delimited {w r : List Char} (hw : Blank w) (hr : Delimited r) :
    Delimited (w ++ r) := by
  cases w with
  | nil => exact hr
  | cons c w =>
    have hc := hw c List.mem_cons_self
    rw [List.cons_append, Delimited, avoids_cons]
    simp only [isSpace, Bool.or_eq_true, beq_iff_eq] at hc
    rcases hc with ((rfl | rfl) | rfl) | rfl <;> decide

section Sequence

variable {ι α : Type} {item : ι → List α → Cursor → Except Fault (α × Cursor)} {close : Char}
  {unclosed : SourceCode} {c w : List Char} {P : α → Prop} {Q : List α → Prop}

variable (item close unclosed) in
/-- An item that is read from a text that starts with `c` has `P`, and ends where `c` does, up to
white space. -/
def Reads (c : List Char) (P : α → Prop) : Prop :=
  ∀ i done s a s' r, s.rest = c ++ r → Delimited r → item i done s = .ok (a, s') →
    P a ∧ space s'.rest = space r

variable (item close unclosed) in
/-- The items that are read from a text that starts with `c` have `Q`, and end where `c` does. -/
def ReadsAll (c : List Char) (Q : List α → Prop) : Prop :=
  ∀ i fuel done s l s' r, s.rest = c ++ r →
    sequence (item i) close unclosed fuel done s = .ok (l, s') →
      ∃ l', l = done ++ l' ∧ Q l' ∧ s'.rest = r

theorem Reads.mono {P' : α → Prop} (h : Reads item c P) (hP : ∀ a, P a → P' a) :
    Reads item c P' := by
  intro i done s a s' r hs hr ha
  obtain ⟨hp, hs'⟩ := h i done s a s' r hs hr ha
  exact ⟨hP a hp, hs'⟩

theorem ReadsAll.mono {Q' : List α → Prop} (h : ReadsAll item close unclosed c Q)
    (hQ : ∀ l, Q l → Q' l) : ReadsAll item close unclosed c Q' := by
  intro i fuel done s l s' r hs hl
  obtain ⟨l', e, hq, hs'⟩ := h i fuel done s l s' r hs hl
  exact ⟨l', e, hQ l' hq, hs'⟩

theorem sequence_eq_ok {one : List α → Cursor → Except Fault (α × Cursor)} {fuel : ℕ}
    {done l : List α} {s s' : Cursor}
    (h : sequence one close unclosed fuel done s = .ok (l, s')) :
    ∃ f a u, fuel = f + 1 ∧ one done s = .ok (a, u) ∧
      (space u.rest = close :: s'.rest ∧ l = done ++ [a] ∨
        ∃ t, space u.rest = ',' :: t ∧ close ≠ ',' ∧
          sequence one close unclosed f (done ++ [a]) ⟨t, u.nodes⟩ = .ok (l, s')) := by
  cases fuel with
  | zero => cases h
  | succ f =>
    rw [sequence, bind_eq_ok] at h
    obtain ⟨⟨a, u⟩, ha, h⟩ := h
    refine ⟨f, a, u, rfl, ha, ?_⟩
    dsimp only at h
    split at h
    · cases h
    · rename_i d t ht
      split at h
      · rename_i hd
        cases h
        exact .inl ⟨hd ▸ ht, rfl⟩
      · rename_i hd
        split at h
        · rename_i hcomma
          subst hcomma
          exact .inr ⟨t, ht, fun e => hd e.symm, h⟩
        · cases h

theorem Reads.last (h : Reads item c P) (hw : Blank w) (hc : isSpace close = false)
    (hg : goesOn close = false) (hcomma : close ≠ ',') :
    ReadsAll item close unclosed (c ++ (w ++ [close])) fun l => ∃ a, l = [a] ∧ P a := by
  intro i fuel done s l s' r hs hl
  obtain ⟨f, a, u, rfl, ha, hend⟩ := sequence_eq_ok hl
  have hr : Delimited (w ++ close :: r) := blank_delimited hw (avoids_cons.mpr hg)
  obtain ⟨hp, hu⟩ := h i done s a u (w ++ close :: r) (by rw [hs]; simp) hr ha
  rw [space_append hw, space_cons hc] at hu
  rcases hend with ⟨he, rfl⟩ | ⟨t, he, -⟩
  · rw [hu] at he
    exact ⟨[a], rfl, ⟨a, rfl, hp⟩, (List.cons.inj he).2.symm⟩
  · rw [hu] at he
    exact absurd (List.cons.inj he).1 hcomma

theorem Reads.cons {cs : List Char} (h : Reads item c P) (hw : Blank w)
    (hcs : ReadsAll item close unclosed cs Q) (hcomma : close ≠ ',') :
    ReadsAll item close unclosed (c ++ (w ++ ',' :: cs)) fun l =>
      ∃ a l', l = a :: l' ∧ P a ∧ Q l' := by
  intro i fuel done s l s' r hs hl
  obtain ⟨f, a, u, rfl, ha, hend⟩ := sequence_eq_ok hl
  have hr : Delimited (w ++ ',' :: (cs ++ r)) := blank_delimited hw (avoids_cons.mpr (by decide))
  obtain ⟨hp, hu⟩ := h i done s a u (w ++ ',' :: (cs ++ r)) (by rw [hs]; simp) hr ha
  rw [space_append hw, space_cons (by decide)] at hu
  rcases hend with ⟨he, rfl⟩ | ⟨t, he, -, hrest⟩
  · rw [hu] at he
    exact absurd (List.cons.inj he).1.symm hcomma
  · rw [hu] at he
    obtain rfl := (List.cons.inj he).2
    obtain ⟨l', rfl, hq, hs'⟩ := hcs i f _ _ l s' r rfl hrest
    exact ⟨a :: l', by simp, ⟨a, l', rfl, hp, hq⟩, hs'⟩

/-- A sequence of items that are read from their own texts is read from its own text. -/
theorem sequence_local {i : ι}
    (hitem : ∀ done s a s', item i done s = .ok (a, s') →
      ∃ c, s.rest = c ++ s'.rest ∧ Reads item c (· = a))
    (hc : isSpace close = false) (hg : goesOn close = false) (hcomma : close ≠ ',') :
    ∀ {fuel done s l s'}, sequence (item i) close unclosed fuel done s = .ok (l, s') →
      ∃ c l', c ≠ [] ∧ s.rest = c ++ s'.rest ∧ l = done ++ l' ∧
        ReadsAll item close unclosed c (· = l') := by
  intro fuel
  induction fuel with
  | zero =>
    intro done s l s' h
    cases h
  | succ f ih =>
    intro done s l s' h
    obtain ⟨_, a, u, hf, ha, hend⟩ := sequence_eq_ok h
    obtain rfl := Nat.succ.inj hf
    obtain ⟨c, hs, hreads⟩ := hitem done s a u ha
    obtain ⟨w, hw, hu⟩ := exists_blank u.rest
    rcases hend with ⟨he, rfl⟩ | ⟨t, he, -, hrest⟩
    · refine ⟨c ++ (w ++ [close]), [a], by simp, ?_, rfl, (hreads.last hw hc hg hcomma).mono ?_⟩
      · rw [hs, hu, he]
        simp
      · rintro l ⟨b, rfl, rfl⟩
        rfl
    · obtain ⟨cs, l', -, ht, rfl, hcs⟩ := ih hrest
      refine ⟨c ++ (w ++ ',' :: cs), a :: l', by simp, ?_, by simp,
        (hreads.cons hw hcs hcomma).mono ?_⟩
      · rw [hs, hu, he]
        dsimp only at ht
        rw [ht]
        simp
      · rintro l ⟨b, m, rfl, rfl, rfl⟩
        rfl

end Sequence

end Olp.Oif
