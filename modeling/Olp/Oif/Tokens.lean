import Olp.Oif.Source

/-!
# The tokens of JSON

The grammar of numbers and strings, apart from the parser, and that the parser reads from a text
exactly the tokens of the grammar: what it consumes is a token (`number_eq_ok`, `string_eq_ok`),
and it consumes a token that is there (`IsNumber.takes`, `quoted_takes`).  A number ends where the
text does not go on it; a string ends by itself.
-/

namespace Olp.Oif

open List

/-! ## White space -/

def Blank (w : List Char) : Prop := ∀ c ∈ w, isSpace c = true

variable {t : List Char}

theorem space_append {w : List Char} (hw : Blank w) : space (w ++ t) = space t :=
  dropWhile_append_of_pos hw

theorem exists_blank (t : List Char) : ∃ w, Blank w ∧ t = w ++ space t :=
  ⟨t.takeWhile isSpace, fun _ h => (mem_takeWhile_imp h), (takeWhile_append_dropWhile).symm⟩

theorem space_cons {c : Char} (hc : isSpace c = false) :
    space (c :: t) = c :: t := dropWhile_cons_of_neg (by simp [hc])

theorem space_eq_cons {c : Char} {u : List Char} (h : space t = c :: u) : isSpace c = false := by
  have hne : t.dropWhile isSpace ≠ [] := by
    rw [← space, h]
    exact cons_ne_nil c u
  have := head_dropWhile_not isSpace hne
  simp only [show t.dropWhile isSpace = c :: u from h] at this
  exact this

@[simp] theorem space_space (t : List Char) : space (space t) = space t := by
  cases h : space t with
  | nil => rfl
  | cons c u => exact space_cons (space_eq_cons h)

theorem upTo_append (c r : List Char) : upTo (c ++ r) r = c := by
  simp [upTo]

/-! ## What follows a token -/

def Avoids (p : Char → Bool) (r : List Char) : Prop := ∀ c t, r = c :: t → p c = false

theorem avoids_nil (p : Char → Bool) : Avoids p [] := by
  intro c t h
  cases h

theorem avoids_cons {p : Char → Bool} {c : Char} : Avoids p (c :: t) ↔ p c = false := by
  refine ⟨fun h => h c t rfl, ?_⟩
  rintro h d u e
  cases e
  exact h

variable {r : List Char}

theorem Avoids.mono {p q : Char → Bool} (h : Avoids p r) (hpq : ∀ c, q c = true → p c = true) :
    Avoids q r := by
  intro c t e
  have := h c t e
  by_contra hq
  rw [hpq c (by simpa using hq)] at this
  cases this

def goesOn (c : Char) : Bool := c.isDigit || c == '.' || c == 'e' || c == 'E'

def Delimited (r : List Char) : Prop := Avoids goesOn r

/-- A part of the grammar reads a text as it stands before everything that meets a condition. -/
def Takes (p : List Char → Except Fault (List Char)) (D : List Char → Prop) (c : List Char) :
    Prop := ∀ r, D r → p (c ++ r) = .ok r

variable {c : List Char}

theorem digits_append (hc : Text.IsDigits c) (hr : Avoids Char.isDigit r) :
    digits (c ++ r) = r := by
  unfold digits
  rw [dropWhile_append_of_pos hc]
  cases r with
  | nil => rfl
  | cons d r => exact dropWhile_cons_of_neg (by simp [hr d r rfl])

theorem exists_digits (t : List Char) : ∃ c, Text.IsDigits c ∧ t = c ++ digits t :=
  ⟨t.takeWhile Char.isDigit, fun _ h => (mem_takeWhile_imp h), (takeWhile_append_dropWhile).symm⟩

/-! ## Numbers -/

/-- Zero, or digits of which the first is not zero. -/
inductive IsInt : List Char → Prop
  | zero : IsInt ['0']
  | digits {c : Char} {t : List Char} : '1' ≤ c → c ≤ '9' → Text.IsDigits t → IsInt (c :: t)

/-- A fraction, which may be absent. -/
inductive IsFrac : List Char → Prop
  | absent : IsFrac []
  | point {t : List Char} : t ≠ [] → Text.IsDigits t → IsFrac ('.' :: t)

/-- An exponent, which may be absent. -/
inductive IsExp : List Char → Prop
  | absent : IsExp []
  | power {e : Char} {s t : List Char} : e = 'e' ∨ e = 'E' → s = [] ∨ s = ['+'] ∨ s = ['-'] →
      t ≠ [] → Text.IsDigits t → IsExp (e :: (s ++ t))

inductive IsNumber : List Char → Prop
  | signed {m i f e : List Char} : m = [] ∨ m = ['-'] → IsInt i → IsFrac f → IsExp e →
      IsNumber (m ++ (i ++ (f ++ e)))

theorem someDigits_eq_ok (h : someDigits t = .ok r) :
    ∃ c, c ≠ [] ∧ Text.IsDigits c ∧ t = c ++ r := by
  obtain ⟨c, hc, ht⟩ := exists_digits t
  unfold someDigits at h
  split at h
  · cases h
  · rename_i hlen
    cases h
    refine ⟨c, ?_, hc, ht⟩
    rintro rfl
    exact hlen (congrArg List.length ht).symm

theorem someDigits_takes (hne : c ≠ []) (hc : Text.IsDigits c) :
    Takes someDigits (Avoids Char.isDigit) c := by
  intro r hr
  unfold someDigits
  rw [digits_append hc hr, if_neg]
  rw [length_append]
  have := length_pos_iff.mpr hne
  omega

variable {d : Char}

theorem digits_cons (hd : d.isDigit = true) :
    digits (d :: t) = digits t := dropWhile_cons_of_pos hd

theorem isDigit_of_le {c : Char} (h₁ : '1' ≤ c) (h₉ : c ≤ '9') : c.isDigit = true := by
  simp only [Char.isDigit, Bool.and_eq_true, decide_eq_true_eq]
  exact ⟨UInt32.le_trans (show '0'.val ≤ '1'.val by decide) h₁, h₉⟩

theorem whole_eq_ok (h : whole t = .ok r) : ∃ c, IsInt c ∧ t = c ++ r := by
  cases t with
  | nil => cases h
  | cons d t =>
    simp only [whole] at h
    split at h
    · -- a zero stands alone
      rename_i hd
      cases h
      exact ⟨['0'], .zero, by rw [hd]; rfl⟩
    · split at h
      · cases h
      · rename_i hrange
        simp only [not_or, Char.not_lt] at hrange
        rw [digits_cons (isDigit_of_le hrange.1 hrange.2)] at h
        cases h
        obtain ⟨c, hc, ht⟩ := exists_digits t
        exact ⟨d :: c, .digits hrange.1 hrange.2 hc, congrArg (d :: ·) ht⟩

theorem IsInt.takes (h : IsInt c) : Takes whole (Avoids Char.isDigit) c := by
  intro r hr
  cases h with
  | zero => simp [whole]
  | @digits d t h₁ h₉ ht =>
    have hzero : d ≠ '0' := by
      rintro rfl
      exact absurd h₁ (by decide)
    have hrange : ¬(d < '1' ∨ '9' < d) := by
      simp only [not_or, Char.not_lt]
      exact ⟨h₁, h₉⟩
    simp only [whole, cons_append, if_neg hzero, if_neg hrange]
    rw [digits_cons (isDigit_of_le h₁ h₉), digits_append ht hr]

theorem IsInt.skip (h : IsInt c) (r : List Char) : skip '-' (c ++ r) = c ++ r := by
  cases h with
  | zero => rfl
  | @digits d t h₁ _ _ =>
    have : d ≠ '-' := by
      rintro rfl
      exact absurd h₁ (by decide)
    simp [Oif.skip, this]

theorem fraction_of_avoids (h : Avoids (· == '.') r) : fraction r = .ok r := by
  cases r with
  | nil => rfl
  | cons c t =>
    rw [avoids_cons] at h
    simp [fraction, if_neg (show ¬c = '.' by simpa using h)]

theorem fraction_eq_ok (h : fraction t = .ok r) : ∃ c, IsFrac c ∧ t = c ++ r := by
  cases t with
  | nil => exact ⟨[], .absent, by cases h; rfl⟩
  | cons d t =>
    simp only [fraction] at h
    split at h
    · rename_i hd
      obtain ⟨c, hne, hc, rfl⟩ := someDigits_eq_ok h
      exact ⟨'.' :: c, .point hne hc, by rw [hd]; rfl⟩
    · cases h
      exact ⟨[], .absent, rfl⟩

theorem IsFrac.takes (h : IsFrac c) : Takes fraction (Avoids fun x => x.isDigit || x == '.') c := by
  intro r hr
  cases h with
  | absent => exact fraction_of_avoids (hr.mono fun x hx => by simp [hx])
  | point hne hc =>
    exact someDigits_takes hne hc r (hr.mono fun x hx => by simp [hx])

theorem IsFrac.avoids (h : IsFrac c) (hr : Avoids Char.isDigit r) :
    Avoids Char.isDigit (c ++ r) := by
  cases h with
  | absent => exact hr
  | point _ _ =>
    rw [cons_append, avoids_cons]
    decide

theorem exponent_of_avoids (h : Avoids (fun x => x == 'e' || x == 'E') r) : exponent r = .ok r := by
  cases r with
  | nil => rfl
  | cons c t =>
    rw [avoids_cons] at h
    simp [exponent, if_neg (show ¬(c = 'e' ∨ c = 'E') by simpa using h)]

theorem sign_eq (t : List Char) : ∃ s, (s = [] ∨ s = ['+'] ∨ s = ['-']) ∧ t = s ++ sign t := by
  cases t with
  | nil => exact ⟨[], .inl rfl, rfl⟩
  | cons c t =>
    by_cases hplus : c = '+'
    · exact ⟨['+'], .inr (.inl rfl), by simp [sign, hplus]⟩
    · by_cases hminus : c = '-'
      · exact ⟨['-'], .inr (.inr rfl), by simp [sign, skip, hminus]⟩
      · exact ⟨[], .inl rfl, by simp [sign, skip, hplus, hminus]⟩

theorem sign_append {s : List Char} (hs : s = [] ∨ s = ['+'] ∨ s = ['-']) (hne : t ≠ [])
    (ht : Text.IsDigits t) (r : List Char) : sign (s ++ (t ++ r)) = t ++ r := by
  rcases hs with rfl | rfl | rfl
  · obtain ⟨d, t, rfl⟩ := exists_cons_of_ne_nil hne
    have hd := ht d mem_cons_self
    have hplus : d ≠ '+' := by
      rintro rfl
      exact absurd hd (by decide)
    have hminus : d ≠ '-' := by
      rintro rfl
      exact absurd hd (by decide)
    simp [sign, skip, hplus, hminus]
  · simp [sign]
  · simp [sign, skip]

theorem exponent_eq_ok (h : exponent t = .ok r) : ∃ c, IsExp c ∧ t = c ++ r := by
  cases t with
  | nil => exact ⟨[], .absent, by cases h; rfl⟩
  | cons e t =>
    simp only [exponent] at h
    split at h
    · rename_i he
      obtain ⟨s, hs, ht⟩ := sign_eq t
      obtain ⟨c, hne, hc, hsign⟩ := someDigits_eq_ok h
      refine ⟨e :: (s ++ c), .power he hs hne hc, ?_⟩
      rw [ht, hsign]
      simp
    · cases h
      exact ⟨[], .absent, rfl⟩

theorem IsExp.takes (h : IsExp c) : Takes exponent Delimited c := by
  intro r hr
  cases h with
  | absent =>
    refine exponent_of_avoids (hr.mono fun x hx => ?_)
    simp only [Bool.or_eq_true] at hx
    simp only [goesOn, Bool.or_eq_true]
    tauto
  | @power e s t he hs hne ht =>
    simp only [exponent, cons_append, if_pos he, append_assoc]
    rw [sign_append hs hne ht]
    exact someDigits_takes hne ht r (hr.mono fun x hx => by simp [goesOn, hx])

theorem IsExp.avoids (h : IsExp c) (hr : Delimited r) :
    Avoids (fun x => x.isDigit || x == '.') (c ++ r) := by
  cases h with
  | absent =>
    refine hr.mono fun x hx => ?_
    simp only [Bool.or_eq_true] at hx
    simp only [goesOn, Bool.or_eq_true]
    tauto
  | power he _ _ _ =>
    rw [cons_append, avoids_cons]
    rcases he with rfl | rfl <;> decide

theorem skip_eq (t : List Char) : ∃ m, (m = [] ∨ m = ['-']) ∧ t = m ++ skip '-' t := by
  cases t with
  | nil => exact ⟨[], .inl rfl, rfl⟩
  | cons c t =>
    by_cases hc : c = '-'
    · exact ⟨['-'], .inr rfl, by simp [skip, hc]⟩
    · exact ⟨[], .inl rfl, by simp [skip, hc]⟩

theorem number_eq_ok (h : number t = .ok r) : ∃ c, IsNumber c ∧ t = c ++ r := by
  unfold number at h
  simp only [bind_eq_ok] at h
  obtain ⟨t₁, h₁, t₂, h₂, h₃⟩ := h
  obtain ⟨m, hm, ht⟩ := skip_eq t
  obtain ⟨i, hi, e₁⟩ := whole_eq_ok h₁
  obtain ⟨f, hf, rfl⟩ := fraction_eq_ok h₂
  obtain ⟨e, he, rfl⟩ := exponent_eq_ok h₃
  refine ⟨_, .signed hm hi hf he, ?_⟩
  rw [ht, e₁]
  simp

theorem IsNumber.takes (h : IsNumber c) : Takes number Delimited c := by
  intro r hr
  obtain ⟨hm, hi, hf, he⟩ := h
  rename_i m i f e
  have hexp := he.avoids hr
  have hfrac := hf.avoids (hexp.mono fun x hx => by simp [hx])
  have hsign : skip '-' (m ++ (i ++ (f ++ (e ++ r)))) = i ++ (f ++ (e ++ r)) := by
    rcases hm with rfl | rfl
    · exact hi.skip _
    · simp [skip]
  unfold number
  simp [append_assoc, hsign, hi.takes _ hfrac, hf.takes _ hexp, he.takes _ hr, bind, Except.bind]

theorem literal_eq_ok {s : List Char} (h : literal s t = .ok r) : t = s ++ r := by
  unfold literal at h
  split at h
  · rename_i hs
    cases h
    obtain ⟨u, rfl⟩ := isPrefixOf_iff_prefix.mp hs
    simp
  · cases h

theorem literal_append (s r : List Char) : literal s (s ++ r) = .ok r := by
  unfold literal
  simp

/-! ## Strings -/

/-- A character of a string as it is written: as it is, as an escape of one letter, or as a unit of
UTF-16 in four hexadecimal digits. -/
inductive Piece where
  | plain (c : Char) (h : c ≠ '"' ∧ 0x20 ≤ c.toNat ∧ c ≠ '\\')
  | escape (e c : Char) (h : simpleEscape e = some c)
  | unit (a b c d : Char) (n : ℕ) (h : hex a b c d = some n)

def Piece.text : Piece → List Char
  | .plain c _ => [c]
  | .escape e _ _ => ['\\', e]
  | .unit a b c d _ _ => ['\\', 'u', a, b, c, d]

def quoted (ps : List Piece) : List Char := '"' :: (ps.flatMap Piece.text ++ ['"'])

def pair (high low : ℕ) : Char := .ofNat (0x10000 + (high - 0xD800) * 0x400 + (low - 0xDC00))

/-- The text that a string stands for, if no surrogate in it is unpaired. -/
def meaning : List Piece → Option (List Char)
  | [] => some []
  | .plain c _ :: ps => (meaning ps).map (c :: ·)
  | .escape _ c _ :: ps => (meaning ps).map (c :: ·)
  | .unit _ _ _ _ n _ :: ps =>
    if isLow n then none
    else if isHigh n then match ps with
      | .unit _ _ _ _ low _ :: ps =>
        if isLow low then (meaning ps).map (pair n low :: ·) else none
      | _ => none
    else (meaning ps).map (Char.ofNat n :: ·)

/-- A piece of the inside of a string that the parser passes over. -/
def Passed (p : List Char) : Prop := ∀ t, stringTail (p ++ t) = stringTail t

theorem passed_plain {c : Char} (hq : c ≠ '"') (hc : ¬c.toNat < 0x20) (hb : c ≠ '\\') :
    Passed [c] := by
  intro t
  rw [singleton_append, stringTail.eq_def]
  simp [if_neg hq, if_neg hc, if_pos hb]

theorem passed_simple {e : Char} (he : (simpleEscape e).isSome = true) : Passed ['\\', e] := by
  intro t
  have hu : e ≠ 'u' := by
    rintro rfl
    cases he
  rw [stringTail.eq_def]
  simp [hu, he]

theorem passed_hex {a b c : Char} {n : ℕ} (hn : hex a b c d = some n) (hlow : ¬isLow n = true)
    (hhigh : ¬isHigh n = true) : Passed ['\\', 'u', a, b, c, d] := by
  intro t
  rw [stringTail.eq_def]
  simp [hn, hlow, hhigh]

theorem passed_pair {a b c a' b' c' d' : Char} {n low : ℕ} (hn : hex a b c d = some n)
    (hlow : ¬isLow n = true) (hhigh : isHigh n = true) (hn' : hex a' b' c' d' = some low)
    (hlow' : isLow low = true) :
    Passed ['\\', 'u', a, b, c, d, '\\', 'u', a', b', c', d'] := by
  intro t
  rw [stringTail.eq_def]
  simp [hn, hlow, hhigh, hn', hlow']

/-- The pieces that stand for one character. -/
inductive Spells : List Piece → Char → Prop
  | plain {c : Char} (h : c ≠ '"' ∧ 0x20 ≤ c.toNat ∧ c ≠ '\\') : Spells [.plain c h] c
  | escape {e c : Char} (h : simpleEscape e = some c) : Spells [.escape e c h] c
  | unit {a b c d : Char} {n : ℕ} (h : hex a b c d = some n) : ¬isLow n = true → ¬isHigh n = true →
      Spells [.unit a b c d n h] (.ofNat n)
  | pair {a b c d a' b' c' d' : Char} {n low : ℕ} (h : hex a b c d = some n)
      (h' : hex a' b' c' d' = some low) : ¬isLow n = true → isHigh n = true → isLow low = true →
      Spells [.unit a b c d n h, .unit a' b' c' d' low h'] (pair n low)

namespace Spells

variable {ps : List Piece} {c : Char}

theorem meaning (h : Spells ps c) (qs : List Piece) :
    meaning (ps ++ qs) = (Oif.meaning qs).map (c :: ·) := by
  cases h with
  | plain | escape => rfl
  | unit _ hlow hhigh =>
    rw [singleton_append, Oif.meaning.eq_def]
    simp [hlow, hhigh]
  | pair _ _ hlow hhigh hlow' =>
    rw [cons_append, singleton_append, Oif.meaning.eq_def]
    simp [hlow, hhigh, hlow']

theorem passed (h : Spells ps c) : Passed (ps.flatMap Piece.text) := by
  cases h with
  | plain h => exact passed_plain h.1 (Nat.not_lt.mpr h.2.1) h.2.2
  | escape h => exact passed_simple (by rw [h]; rfl)
  | unit h hlow hhigh => exact passed_hex h hlow hhigh
  | pair h h' hlow hhigh hlow' => exact passed_pair h hlow hhigh h' hlow'

theorem unquote (h : Spells ps c) (t : List Char) :
    unquote (ps.flatMap Piece.text ++ t) = c :: Oif.unquote t := by
  cases h with
  | plain h =>
    simp only [flatMap_cons, Piece.text, flatMap_nil, append_nil, singleton_append]
    rw [Oif.unquote.eq_def]
    simp [h.2.2]
  | @escape e _ h =>
    have hu : e ≠ 'u' := by
      rintro rfl
      cases h
    simp only [flatMap_cons, Piece.text, flatMap_nil, append_nil, cons_append, nil_append]
    rw [Oif.unquote.eq_def]
    simp [hu, h]
  | unit h _ hhigh =>
    simp only [flatMap_cons, Piece.text, flatMap_nil, append_nil, cons_append, nil_append]
    rw [Oif.unquote.eq_def]
    simp [h, hhigh]
  | pair h h' _ hhigh _ =>
    simp only [flatMap_cons, Piece.text, flatMap_nil, append_nil, cons_append, nil_append]
    rw [Oif.unquote.eq_def]
    simp [h, h', hhigh, Oif.pair]

end Spells

variable {ps : List Piece}

theorem meaning_induction {P : List Piece → List Char → Prop} (nil : P [] [])
    (part : ∀ {ps c qs t}, Spells ps c → meaning qs = some t → P qs t → P (ps ++ qs) (c :: t))
    (h : meaning ps = some t) : P ps t := by
  fun_induction meaning ps generalizing t with
  | case1 =>
    cases h
    exact nil
  | case2 c hc qs ih =>
    obtain ⟨u, hu, rfl⟩ := Option.map_eq_some_iff.mp h
    exact part (.plain hc) hu (ih hu)
  | case3 e c hc qs ih =>
    obtain ⟨u, hu, rfl⟩ := Option.map_eq_some_iff.mp h
    exact part (.escape hc) hu (ih hu)
  | case5 a b c d n hn hlow hhigh a' b' c' d' low hn' qs hlow' ih =>
    obtain ⟨u, hu, rfl⟩ := Option.map_eq_some_iff.mp h
    exact part (.pair hn hn' hlow hhigh hlow') hu (ih hu)
  | case8 a b c d n hn qs hlow hhigh ih =>
    obtain ⟨u, hu, rfl⟩ := Option.map_eq_some_iff.mp h
    exact part (.unit hn hlow hhigh) hu (ih hu)
  | _ => cases h

theorem stringTail_text (h : meaning ps = some t) (r : List Char) :
    stringTail (ps.flatMap Piece.text ++ '"' :: r) = .ok r := by
  refine meaning_induction (P := fun ps _ => stringTail (ps.flatMap Piece.text ++ '"' :: r) = .ok r)
    ?_ ?_ h
  · simp [stringTail.eq_def ('"' :: _)]
  · intro ps c qs t hp _ ih
    rw [flatMap_append, append_assoc, hp.passed, ih]

theorem unquote_text (h : meaning ps = some t) : unquote (ps.flatMap Piece.text) = t := by
  refine meaning_induction (P := fun ps t => unquote (ps.flatMap Piece.text) = t) rfl ?_ h
  intro ps c qs t hp _ ih
  rw [flatMap_append, hp.unquote, ih]

theorem stringTail_eq_ok (h : stringTail t = .ok r) :
    ∃ ps s, meaning ps = some s ∧ t = ps.flatMap Piece.text ++ '"' :: r := by
  have part : ∀ {ps c t}, Spells ps c →
      (∃ qs s, meaning qs = some s ∧ t = qs.flatMap Piece.text ++ '"' :: r) →
        ∃ qs s, meaning qs = some s ∧
          ps.flatMap Piece.text ++ t = qs.flatMap Piece.text ++ '"' :: r := by
    rintro ps c _ hp ⟨qs, s, hs, rfl⟩
    exact ⟨ps ++ qs, c :: s, by rw [hp.meaning, hs]; rfl, by simp⟩
  fun_induction stringTail t generalizing r with
  | case2 t =>
    cases h
    exact ⟨[], [], rfl, rfl⟩
  | case4 d t hq hd hb ih => exact part (.plain ⟨hq, Nat.not_lt.mp hd, hb⟩) (ih h part)
  | case9 d _ _ hd a b c e n hn hlow hhigh a' b' c' e' v low hn' hlow' ih =>
    obtain rfl := not_not.mp hd
    exact part (.pair hn hn' hlow hhigh hlow') (ih h part)
  | case14 d _ _ hd a b c e u n hn hlow hhigh ih =>
    obtain rfl := not_not.mp hd
    exact part (.unit hn hlow hhigh) (ih h part)
  | case16 d _ _ hd e t _ he ih =>
    obtain rfl := not_not.mp hd
    obtain ⟨c, hc⟩ := Option.isSome_iff_exists.mp he
    exact part (.escape hc) (ih h part)
  | _ => cases h

theorem string_eq_ok (h : string t = .ok r) : ∃ ps s, meaning ps = some s ∧ t = quoted ps ++ r := by
  cases t with
  | nil => cases h
  | cons d t =>
    simp only [string] at h
    split at h
    · rename_i hd
      obtain ⟨ps, s, hs, rfl⟩ := stringTail_eq_ok h
      exact ⟨ps, s, hs, by simp [quoted, hd]⟩
    · cases h

theorem quoted_takes (h : meaning ps = some t) : Takes string (fun _ => True) (quoted ps) := by
  intro r _
  simp only [quoted, cons_append, append_assoc, nil_append, string, if_pos]
  exact stringTail_text h r

theorem unquote_of_not_mem (h : '\\' ∉ t) : unquote t = t := by
  induction t with
  | nil => rfl
  | cons c t ih =>
    rw [mem_cons, not_or] at h
    rw [unquote.eq_def]
    simp [if_pos (Ne.symm h.1), ih h.2]

theorem memberName_quoted (h : meaning ps = some t) : memberName (quoted ps) = t := by
  simp only [memberName, quoted, drop_succ_cons, drop_zero, dropLast_concat]
  split
  · exact unquote_text h
  · rename_i hplain
    rw [← unquote_of_not_mem hplain, unquote_text h]

/-! ## Scalars -/

/-- A value that holds no others. -/
inductive Scalar where
  | null
  | boolean (b : Bool)
  | number (t : List Char) (h : IsNumber t)
  | string (ps : List Piece)

namespace Scalar

def text : Scalar → List Char
  | .null => ['n', 'u', 'l', 'l']
  | .boolean true => ['t', 'r', 'u', 'e']
  | .boolean false => ['f', 'a', 'l', 's', 'e']
  | .number t _ => t
  | .string ps => quoted ps

def kind : Scalar → Kind
  | .null => .null
  | .boolean _ => .boolean
  | .number _ _ => .number
  | .string _ => .string

/-- No surrogate of a string is unpaired. -/
def Paired : Scalar → Prop
  | .string ps => (meaning ps).isSome = true
  | _ => True

end Scalar

/-- A character that neither is white space nor opens or closes a container. -/
def Within (c : Char) : Prop := isSpace c = false ∧ c ≠ '\x7b' ∧ c ≠ '[' ∧ c ≠ ']'

instance (c : Char) : Decidable (Within c) := inferInstanceAs (Decidable (_ ∧ _))

theorem IsNumber.exists_head (h : IsNumber t) :
    ∃ c u, t = c :: u ∧ (c = '-' ∨ c.isDigit = true) := by
  obtain ⟨hm, hi, -, -⟩ := h
  rcases hm with rfl | rfl
  · cases hi with
    | zero => exact ⟨'0', _, rfl, .inr rfl⟩
    | digits h₁ h₉ _ => exact ⟨_, _, rfl, .inr (isDigit_of_le h₁ h₉)⟩
  · exact ⟨'-', _, rfl, .inl rfl⟩

theorem ne_of_head {c : Char} (hc : c = '-' ∨ c.isDigit = true) (hd : d ≠ '-' ∧ d.isDigit = false) :
    c ≠ d := by
  rintro rfl
  rcases hc with rfl | hc
  · exact hd.1 rfl
  · exact Bool.noConfusion (hd.2.symm.trans hc)

/-- A scalar is read from its text by its first character. -/
theorem Scalar.Paired.takes {s : Scalar} (h : s.Paired) : ∃ c u, s.text = c :: u ∧ Within c ∧
    ∀ r, Delimited r → scalar c (c :: u ++ r) = .ok (s.kind, r) := by
  have literal : ∀ {k : Kind} {c : Char} {u : List Char}, Within c →
      (∀ t, scalar c t = (literal (c :: u) t).map (k, ·)) →
        Within c ∧ ∀ r, Delimited r → scalar c (c :: u ++ r) = .ok (k, r) := by
    intro k c u hc heq
    refine ⟨hc, fun r _ => ?_⟩
    rw [heq, literal_append]
    rfl
  cases s with
  | null => exact ⟨_, _, rfl, literal (by decide) fun _ => rfl⟩
  | boolean b => cases b <;> exact ⟨_, _, rfl, literal (by decide) fun _ => rfl⟩
  | string ps =>
    obtain ⟨t, ht⟩ := Option.isSome_iff_exists.mp h
    refine ⟨_, _, rfl, by decide, fun r _ => ?_⟩
    exact congrArg (Except.map (Kind.string, ·)) (quoted_takes ht r trivial)
  | number t hn =>
    obtain ⟨c, u, rfl, hc⟩ := hn.exists_head
    have hspace : isSpace c = false := by
      simp only [isSpace, Bool.or_eq_false_iff, beq_eq_false_iff_ne]
      exact ⟨⟨⟨ne_of_head hc (by decide), ne_of_head hc (by decide)⟩, ne_of_head hc (by decide)⟩,
        ne_of_head hc (by decide)⟩
    refine ⟨c, u, rfl, ⟨hspace, ne_of_head hc (by decide), ne_of_head hc (by decide),
      ne_of_head hc (by decide)⟩, fun r hr => ?_⟩
    unfold scalar
    split
    · exact absurd rfl (ne_of_head hc (by decide))
    · exact absurd rfl (ne_of_head hc (by decide))
    · exact absurd rfl (ne_of_head hc (by decide))
    · exact absurd rfl (ne_of_head hc (by decide))
    · exact congrArg (Except.map (Kind.number, ·)) (hn.takes r hr)

theorem scalar_eq_ok {k : Kind} (h : scalar d (d :: t) = .ok (k, r)) :
    ∃ s : Scalar, s.Paired ∧ s.kind = k ∧ d :: t = s.text ++ r := by
  unfold scalar at h
  split at h
  all_goals
    rw [map_eq_ok] at h
    obtain ⟨r', h, e⟩ := h
    cases e
  · obtain ⟨ps, s, hs, ht⟩ := string_eq_ok h
    exact ⟨.string ps, by rw [Scalar.Paired, hs]; rfl, rfl, ht⟩
  · exact ⟨.null, trivial, rfl, literal_eq_ok h⟩
  · exact ⟨.boolean true, trivial, rfl, literal_eq_ok h⟩
  · exact ⟨.boolean false, trivial, rfl, literal_eq_ok h⟩
  · obtain ⟨c, hc, ht⟩ := number_eq_ok h
    exact ⟨.number c hc, trivial, rfl, ht⟩

end Olp.Oif
