import Olp.Oif.Scan
import Olp.Oif.Grammar

/-!
# The parser on bytes and the parser on text

The bytes of a text are read as the text is: every token of the parser on bytes ends where that of
the parser on characters does, since no byte of a character beyond ASCII is one the parser looks
for, and eight bytes at once are passed over only when none of them is.  The two agree in what they
accept and in the codes of their errors, and the positions of the values are
those of their texts.
-/

namespace Olp.Oif.Scan

open List

/-! ## Encoded texts -/

@[simp] theorem utf8_nil : utf8 [] = [] := rfl

theorem utf8_cons (c : Char) (t : List Char) : utf8 (c :: t) = String.utf8EncodeChar c ++ utf8 t :=
  rfl

@[simp] theorem utf8_append (t u : List Char) : utf8 (t ++ u) = utf8 t ++ utf8 u :=
  flatMap_append

variable {s : Bytes}

theorem valid_iff : valid s = true ↔ ∃ t, s = utf8 t := by
  rw [valid, ByteArray.validateUTF8_eq_true_iff]
  constructor
  · rintro ⟨t, ht⟩
    exact ⟨t, toByteArray_inj.mp ht⟩
  · rintro ⟨t, rfl⟩
    exact ⟨t, rfl⟩

@[simp] theorem textOf_utf8 (t : List Char) : textOf (utf8 t) = t := by
  have hvalid : (utf8 t).toByteArray.IsValidUTF8 := ⟨t, rfl⟩
  have hstring : String.fromUTF8 (utf8 t).toByteArray hvalid = String.ofList t :=
    String.toByteArray_inj.mp (String.toByteArray_ofList (l := t)).symm
  rw [textOf, String.fromUTF8?, dif_pos hvalid, hstring]
  simp

theorem utf8_injective : Function.Injective utf8 :=
  Function.LeftInverse.injective textOf_utf8

theorem encode_cases (c : Char) :
    (c.toNat < 128 ∧ String.utf8EncodeChar c = [byte c]) ∨
      (128 ≤ c.toNat ∧ String.utf8EncodeChar c ≠ [] ∧
        ∀ b ∈ String.utf8EncodeChar c, 0x80 ≤ b.toNat) := by
  by_cases h : c.toNat < 128
  · left
    refine ⟨h, ?_⟩
    rw [String.utf8EncodeChar]
    simp only [show c.val.toNat ≤ 127 from Nat.le_of_lt_succ h, if_pos]
    rfl
  · right
    refine ⟨Nat.le_of_not_lt h, by simp, ?_⟩
    intro b hb
    rw [String.utf8EncodeChar] at hb
    simp only [show ¬c.val.toNat ≤ 127 from fun hle => h (Nat.lt_succ_of_le hle), if_false] at hb
    split at hb
    · simp only [mem_cons, not_mem_nil, or_false] at hb
      rcases hb with rfl | rfl <;> simp <;> omega
    · split at hb
      · simp only [mem_cons, not_mem_nil, or_false] at hb
        rcases hb with rfl | rfl | rfl <;> simp <;> omega
      · simp only [mem_cons, not_mem_nil, or_false] at hb
        rcases hb with rfl | rfl | rfl | rfl <;> simp <;> omega

/-! ## Eight bytes at a time -/

variable {b : UInt8}

theorem isPlain_eq_false (h : isPlain b = false) :
    b.toNat < 0x20 ∨ b = byte '"' ∨ b = byte '\\' := by
  simp only [isPlain, Bool.not_eq_false', Bool.or_eq_true, beq_iff_eq, decide_eq_true_eq] at h
  rcases h with (rfl | rfl) | h
  · exact .inr (.inl rfl)
  · exact .inr (.inr rfl)
  · exact .inl h

theorem shows_byte {w q : UInt64} {bs : List UInt8} (hw : w.toNat = Lanes.word bs)
    (hl : bs.length = 8) (hq : q.toNat = Lanes.lanes b.toNat 8) (h : b ∈ bs) :
    Lanes.Shows (Lanes.wrapped (w ^^^ q) Lanes.ones) := by
  have hxor : (w ^^^ q).toNat = Lanes.word (bs.map (· ^^^ b)) := by
    rw [UInt64.toNat_xor, hw, hq, ← hl, Lanes.word_xor]
  refine Lanes.shows_wrapped hxor (by simpa using hl) (n := 1) rfl (by decide) ?_
  exact ⟨b ^^^ b, mem_map_of_mem h, Lanes.xor_toNat_lt_one.mpr rfl⟩

theorem flagged_eq_true {w : UInt64} {bs : List UInt8} (hw : w.toNat = Lanes.word bs)
    (hl : bs.length = 8) (h : ∃ b ∈ bs, isPlain b = false) : flagged w = true := by
  obtain ⟨b, hb, hplain⟩ := h
  unfold flagged
  rw [bne_iff_ne]
  apply Lanes.Shows.and_highs
  rcases isPlain_eq_false hplain with hlow | rfl | rfl
  · exact (Lanes.Shows.or_left (Lanes.shows_wrapped hw hl (n := 0x20) rfl (by decide) ⟨b, hb, hlow⟩)
      _).or_left _
  · exact (Lanes.Shows.or_right (shows_byte hw hl rfl hb) _).or_left _
  · exact Lanes.Shows.or_right (shows_byte hw hl rfl hb) _

theorem plainEnd_eq (s : Bytes) : plainEnd s = s.dropWhile isPlain := by
  fun_induction plainEnd s with
  | case1 => rfl
  | case2 b0 b1 b2 b3 b4 b5 b6 b7 s hflag ih =>
    have hplain : ∀ b ∈ [b0, b1, b2, b3, b4, b5, b6, b7], isPlain b = true := by
      intro b hb
      by_contra hb'
      exact hflag (flagged_eq_true (Lanes.pack_toNat b0 b1 b2 b3 b4 b5 b6 b7) rfl
        ⟨b, hb, by simpa using hb'⟩)
    rw [ih]
    exact (dropWhile_append_of_pos hplain).symm
  | case3 => rfl

/-- The index that `plainEnd` returns for a text and a start. -/
def plainEndAt (s : Bytes) (i : ℕ) : ℕ := i + ((s.drop i).length - (plainEnd (s.drop i)).length)

/-- The end of the plain run is the length of its longest plain start. -/
theorem plainEndAt_eq (s : Bytes) (i : ℕ) :
    plainEndAt s i = i + ((s.drop i).takeWhile isPlain).length := by
  have hlen := congrArg length (takeWhile_append_dropWhile (p := isPlain) (l := s.drop i))
  rw [length_append] at hlen
  rw [plainEndAt, plainEnd_eq]
  omega

theorem isPlain_eq_true : isPlain b = true ↔ b ≠ byte '"' ∧ b ≠ byte '\\' ∧ ¬ b < 0x20 := by
  simp [isPlain, and_assoc]

/-- **A string is read to its first special byte.**  From a start in the text, `plainEnd` stops at
its end or at a quotation mark, a backslash or a byte below `0x20`, and every byte before that is
none of them, whatever the bytes of the words it reads. -/
theorem plainEnd_first (s : Bytes) (i : ℕ) :
    i ≤ plainEndAt s i ∧ (i ≤ s.length → plainEndAt s i ≤ s.length) ∧
      (∀ j b, i ≤ j → j < plainEndAt s i → s[j]? = some b →
        b ≠ byte '"' ∧ b ≠ byte '\\' ∧ ¬ b < 0x20) ∧
      ∀ b, s[plainEndAt s i]? = some b → b = byte '"' ∨ b = byte '\\' ∨ b < 0x20 := by
  have hsplit := takeWhile_append_dropWhile (p := isPlain) (l := s.drop i)
  rw [plainEndAt_eq]
  refine ⟨Nat.le_add_right i _, fun hi => ?_, fun j b hij hj hb => ?_, fun b hb => ?_⟩
  · have hle := (takeWhile_sublist isPlain (l := s.drop i)).length_le
    rw [length_drop] at hle
    omega
  · rw [← isPlain_eq_true]
    obtain ⟨k, rfl⟩ := Nat.exists_eq_add_of_le hij
    rw [← getElem?_drop, ← hsplit, getElem?_append_left (by omega)] at hb
    exact mem_takeWhile_imp (mem_of_getElem? hb)
  · rw [← getElem?_drop, ← hsplit, getElem?_append_right (by simp), takeWhile_append_dropWhile,
      Nat.sub_self, ← head?_eq_getElem?] at hb
    have hstop := head?_dropWhile_not isPlain (s.drop i)
    rw [hb] at hstop
    rcases isPlain_eq_false hstop with h | h | h
    · exact .inr (.inr h)
    · exact .inl h
    · exact .inr (.inl h)

/-! ## Heads -/

variable {c d : Char} {u : List Char}

theorem byte_toNat (hc : c.toNat < 128) : (byte c).toNat = c.toNat := by
  rw [byte, Nat.toUInt8_eq, UInt8.toNat_ofNat']
  omega

theorem byte_inj (hc : c.toNat < 128) (hd : d.toNat < 128) : byte c = byte d ↔ c = d := by
  refine ⟨fun h => ?_, fun h => h ▸ rfl⟩
  have := congrArg UInt8.toNat h
  rw [byte_toNat hc, byte_toNat hd] at this
  exact Char.toNat_inj.mp this

theorem utf8_ascii (hc : c.toNat < 128) (t : List Char) : utf8 (c :: t) = byte c :: utf8 t := by
  rcases encode_cases c with ⟨-, h⟩ | ⟨h, -⟩
  · rw [utf8_cons, h, singleton_append]
  · omega

theorem length_le_utf8 (t : List Char) : t.length ≤ (utf8 t).length := by
  induction t with
  | nil => exact Nat.le_refl _
  | cons c t ih =>
    have hc : 0 < (String.utf8EncodeChar c).length := by
      rcases encode_cases c with ⟨-, h⟩ | ⟨-, h, -⟩
      · rw [h]
        exact Nat.one_pos
      · exact length_pos_iff.mpr h
    rw [utf8_cons, length_append, length_cons]
    omega

theorem utf8_wide (hc : 128 ≤ c.toNat) :
    ∃ b bs, String.utf8EncodeChar c = b :: bs ∧ ∀ x ∈ b :: bs, 0x80 ≤ x.toNat := by
  rcases encode_cases c with ⟨h, -⟩ | ⟨-, hne, h⟩
  · omega
  · obtain ⟨b, bs, e⟩ := exists_cons_of_ne_nil hne
    exact ⟨b, bs, e, e ▸ h⟩

variable {t : List Char}

theorem exists_of_utf8_cons (h : utf8 t = b :: s) (hb : b.toNat < 128) :
    ∃ c u, t = c :: u ∧ c.toNat < 128 ∧ b = byte c ∧ s = utf8 u := by
  cases t with
  | nil => cases h
  | cons c u =>
    by_cases hc : c.toNat < 128
    · rw [utf8_ascii hc] at h
      cases h
      exact ⟨c, u, rfl, hc, rfl, rfl⟩
    · obtain ⟨x, xs, e, hx⟩ := utf8_wide (Nat.le_of_not_lt hc)
      rw [utf8_cons, e] at h
      obtain ⟨rfl, -⟩ := List.cons.inj h
      have := hx x mem_cons_self
      omega

theorem head_eq_byte (h : utf8 (c :: u) = b :: s) (hd : d.toNat < 128) : b = byte d ↔ c = d := by
  constructor
  · rintro rfl
    obtain ⟨e, v, ht, he, hbyte, -⟩ := exists_of_utf8_cons h (by rwa [byte_toNat hd])
    obtain ⟨rfl, -⟩ := List.cons.inj ht
    exact ((byte_inj hd he).mp hbyte).symm
  · rintro rfl
    rw [utf8_ascii hd] at h
    exact (List.cons.inj h).1.symm

/-- A test that treats every byte beyond ASCII alike drops the bytes of the characters that the
same test on characters drops. -/
theorem dropWhile_utf8 {p : UInt8 → Bool} {q : Char → Bool} {v : Bool}
    (hascii : ∀ c : Char, c.toNat < 128 → p (byte c) = q c)
    (hbyte : ∀ b : UInt8, 0x80 ≤ b.toNat → p b = v) (hchar : ∀ c : Char, 128 ≤ c.toNat → q c = v)
    (t : List Char) : (utf8 t).dropWhile p = utf8 (t.dropWhile q) := by
  induction t with
  | nil => rfl
  | cons c t ih =>
    by_cases hc : c.toNat < 128
    · rw [utf8_ascii hc, dropWhile_cons, dropWhile_cons, hascii c hc, ih]
      split
      · rfl
      · rw [utf8_ascii hc]
    · have hc := Nat.le_of_not_lt hc
      obtain ⟨b, bs, e, hb⟩ := utf8_wide hc
      rw [dropWhile_cons, hchar c hc]
      cases v with
      | true =>
        rw [utf8_cons, e, dropWhile_append_of_pos fun x hx => hbyte x (hb x hx), ih]
        rfl
      | false =>
        rw [utf8_cons, e, cons_append, dropWhile_cons, hbyte b (hb b mem_cons_self)]
        simp [utf8_cons, e]

theorem ne_byte (hb : 0x80 ≤ b.toNat) (hd : d.toNat < 128) : b ≠ byte d := by
  rintro rfl
  rw [byte_toNat hd] at hb
  omega

theorem ne_ascii (hc : 128 ≤ c.toNat) (hd : d.toNat < 128) : c ≠ d := by
  rintro rfl
  omega

theorem byte_beq (hc : c.toNat < 128) (hd : d.toNat < 128) : (byte c == byte d) = (c == d) := by
  rw [Bool.eq_iff_iff, beq_iff_eq, beq_iff_eq, byte_inj hc hd]

theorem space_utf8 (t : List Char) : space (utf8 t) = utf8 (Oif.space t) := by
  refine dropWhile_utf8 (v := false) ?_ ?_ ?_ t
  · intro c hc
    rw [isSpace, Oif.isSpace, byte_beq hc (by decide), byte_beq hc (by decide),
      byte_beq hc (by decide), byte_beq hc (by decide)]
  · intro b hb
    simp only [isSpace, Bool.or_eq_false_iff, beq_eq_false_iff_ne]
    exact ⟨⟨⟨ne_byte hb (by decide), ne_byte hb (by decide)⟩, ne_byte hb (by decide)⟩,
      ne_byte hb (by decide)⟩
  · intro c hc
    simp only [Oif.isSpace, Bool.or_eq_false_iff, beq_eq_false_iff_ne]
    exact ⟨⟨⟨ne_ascii hc (by decide), ne_ascii hc (by decide)⟩, ne_ascii hc (by decide)⟩,
      ne_ascii hc (by decide)⟩

theorem isDigit_iff : c.isDigit = true ↔ 48 ≤ c.toNat ∧ c.toNat ≤ 57 := by
  simp only [Char.isDigit, Bool.and_eq_true, decide_eq_true_eq, UInt32.le_iff_toNat_le]
  rfl

theorem digits_utf8 (t : List Char) : digits (utf8 t) = utf8 (Oif.digits t) := by
  have hdigit : ∀ b : UInt8, isDigit b = true ↔ 48 ≤ b.toNat ∧ b.toNat ≤ 57 := by
    intro b
    simp only [isDigit, Bool.and_eq_true, decide_eq_true_eq, UInt8.le_iff_toNat_le]
    rfl
  refine dropWhile_utf8 (v := false) ?_ ?_ ?_ t
  · intro c hc
    rw [Bool.eq_iff_iff, hdigit, isDigit_iff, byte_toNat hc]
  · intro b hb
    rw [Bool.eq_false_iff, ne_eq, hdigit]
    omega
  · intro c hc
    rw [Bool.eq_false_iff, ne_eq, isDigit_iff]
    omega

/-- `take` on characters. -/
def after (c : Char) : List Char → Option (List Char)
  | [] => none
  | d :: u => if d = c then some u else none

theorem take_utf8 (hc : c.toNat < 128) (t : List Char) :
    take c (utf8 t) = (after c t).map utf8 := by
  cases t with
  | nil => rfl
  | cons d u =>
    by_cases hd : d.toNat < 128
    · rw [utf8_ascii hd, take, after]
      simp only [byte_inj hd hc]
      split <;> rfl
    · obtain ⟨b, bs, e, hb⟩ := utf8_wide (Nat.le_of_not_lt hd)
      rw [utf8_cons, e, cons_append, take, after,
        if_neg (ne_byte (hb b mem_cons_self) hc), if_neg (ne_ascii (Nat.le_of_not_lt hd) hc)]
      rfl

/-! ## Two parsers that go together -/

section Follows

variable {α β γ δ : Type} {R : α → β → Prop} {S : γ → δ → Prop}

/-- A computation on bytes goes as one on characters does: both give results that are related, or
both fail with the same code. -/
inductive Follows (R : α → β → Prop) : Except Stop α → Except Fault β → Prop
  | ok {a : α} {b : β} : R a b → Follows R (.ok a) (.ok b)
  | error {code : SourceCode} {s : Bytes} {t : List Char} :
      Follows R (.error (code, s)) (.error (code, t))

theorem Follows.bind {x : Except Stop α} {y : Except Fault β} {f : α → Except Stop γ}
    {g : β → Except Fault δ} (h : Follows R x y)
    (hfg : ∀ a b, y = .ok b → R a b → Follows S (f a) (g b)) : Follows S (x >>= f) (y >>= g) := by
  cases h with
  | ok hab => exact hfg _ _ rfl hab
  | error => exact .error

theorem Follows.map {x : Except Stop α} {y : Except Fault β} {f : α → γ} {g : β → δ}
    (h : Follows R x y) (hfg : ∀ a b, R a b → S (f a) (g b)) : Follows S (x.map f) (y.map g) := by
  cases h with
  | ok hab => exact .ok (hfg _ _ hab)
  | error => exact .error

end Follows

theorem Follows.mono {α β : Type} {R S : α → β → Prop} {x : Except Stop α} {y : Except Fault β}
    (h : Follows R x y) (hRS : ∀ a b, y = .ok b → R a b → S a b) : Follows S x y := by
  cases h with
  | ok hab => exact .ok (hRS _ _ rfl hab)
  | error => exact .error

abbrev Left (s : Bytes) (t : List Char) : Prop := s = utf8 t

/-! ## Numbers and literals -/

theorem dropWhile_length_eq {α : Type*} {p : α → Bool} {l : List α} :
    (l.dropWhile p).length = l.length ↔ l.dropWhile p = l :=
  ⟨(dropWhile_suffix p).eq_of_length, congrArg List.length⟩

section

variable (t)

theorem someDigits_follows : Follows Left (someDigits (utf8 t)) (Oif.someDigits t) := by
  have hiff : (digits (utf8 t)).length = (utf8 t).length ↔ (Oif.digits t).length = t.length := by
    rw [digits, dropWhile_length_eq, Oif.digits, dropWhile_length_eq]
    show digits (utf8 t) = utf8 t ↔ Oif.digits t = t
    rw [digits_utf8]
    exact utf8_injective.eq_iff
  unfold someDigits Oif.someDigits
  simp only [hiff]
  split
  · exact .error
  · exact .ok (digits_utf8 t)

theorem whole_follows : Follows Left (whole (utf8 t)) (Oif.whole t) := by
  cases t with
  | nil => exact .error
  | cons c t =>
    by_cases hc : c.toNat < 128
    · have hrange : (byte c < byte '1' || byte '9' < byte c) = true ↔ c < '1' ∨ '9' < c := by
        simp only [Bool.or_eq_true, decide_eq_true_eq, UInt8.lt_iff_toNat_lt, byte_toNat hc]
        rfl
      rw [utf8_ascii hc, whole, Oif.whole]
      simp only [byte_inj hc (show '0'.toNat < 128 by decide), hrange]
      split
      · exact .ok rfl
      · split
        · exact .error
        · exact .ok (utf8_ascii hc t ▸ digits_utf8 (c :: t))
    · have hc := Nat.le_of_not_lt hc
      obtain ⟨b, bs, e, hb⟩ := utf8_wide hc
      have hb := hb b mem_cons_self
      have hbyte : (b < byte '1' || byte '9' < b) = true := by
        simp only [Bool.or_eq_true, decide_eq_true_eq, UInt8.lt_iff_toNat_lt]
        exact .inr (Nat.lt_of_lt_of_le (by decide) hb)
      have hchar : c < '1' ∨ '9' < c := .inr (Nat.lt_of_lt_of_le (by decide) hc)
      rw [utf8_cons, e, cons_append, whole, Oif.whole, if_neg (ne_byte hb (by decide)),
        if_neg (ne_ascii hc (by decide)), if_pos hbyte, if_pos hchar]
      exact .error

theorem fraction_follows : Follows Left (fraction (utf8 t)) (Oif.fraction t) := by
  rw [fraction, take_utf8 (by decide)]
  cases t with
  | nil => exact .ok rfl
  | cons c t =>
    rw [Oif.fraction, after]
    split_ifs with hc
    · exact someDigits_follows t
    · exact .ok rfl

theorem getD_take_utf8 {c : Char} (hc : c.toNat < 128) (t : List Char) :
    (take c (utf8 t)).getD (utf8 t) = utf8 (skip c t) := by
  rw [take_utf8 hc]
  cases t with
  | nil => rfl
  | cons d t =>
    rw [after, skip]
    split_ifs <;> rfl

theorem sign_utf8 :
    (take '+' (utf8 t)).getD ((take '-' (utf8 t)).getD (utf8 t)) = utf8 (sign t) := by
  rw [getD_take_utf8 (by decide), take_utf8 (by decide)]
  cases t with
  | nil => rfl
  | cons d t =>
    rw [after, sign]
    split_ifs <;> rfl

theorem exponent_follows : Follows Left (exponent (utf8 t)) (Oif.exponent t) := by
  rw [exponent, take_utf8 (by decide), take_utf8 (by decide)]
  cases t with
  | nil => exact .ok rfl
  | cons c t =>
    have hafter : ((after 'e' (c :: t)).map utf8).or ((after 'E' (c :: t)).map utf8) =
        if c = 'e' ∨ c = 'E' then some (utf8 t) else none := by
      rw [after, after]
      split_ifs <;> simp_all
    rw [hafter, Oif.exponent]
    split_ifs
    · dsimp only
      rw [sign_utf8]
      exact someDigits_follows (sign t)
    · exact .ok rfl

theorem number_follows : Follows Left (number (utf8 t)) (Oif.number t) := by
  unfold number Oif.number
  rw [getD_take_utf8 (by decide)]
  refine (whole_follows _).bind ?_
  rintro _ u - rfl
  refine (fraction_follows u).bind ?_
  rintro _ v - rfl
  exact exponent_follows v

end

variable {w : List Char}

theorem isPrefixOf_utf8 (hw : ∀ c ∈ w, c.toNat < 128) (t : List Char) :
    (w.map byte).isPrefixOf (utf8 t) = w.isPrefixOf t := by
  induction w generalizing t with
  | nil => simp
  | cons c w ih =>
    have hc := hw c mem_cons_self
    cases t with
    | nil => rfl
    | cons d t =>
      by_cases hd : d.toNat < 128
      · rw [utf8_ascii hd, map_cons, List.isPrefixOf, List.isPrefixOf,
          ih (fun x hx => hw x (mem_cons_of_mem c hx))]
        congr 1
        rw [Bool.eq_iff_iff, beq_iff_eq, beq_iff_eq, byte_inj hc hd]
      · have hd := Nat.le_of_not_lt hd
        obtain ⟨b, bs, e, hb⟩ := utf8_wide hd
        have hbyte : (byte c == b) = false :=
          beq_eq_false_iff_ne.mpr (ne_byte (hb b mem_cons_self) hc).symm
        have hchar : (c == d) = false := beq_eq_false_iff_ne.mpr (ne_ascii hd hc).symm
        rw [utf8_cons, e, cons_append, map_cons, List.isPrefixOf, List.isPrefixOf,
          hbyte, hchar, Bool.false_and, Bool.false_and]

theorem utf8_of_ascii (hw : ∀ c ∈ w, c.toNat < 128) : utf8 w = w.map byte := by
  induction w with
  | nil => rfl
  | cons c w ih =>
    rw [utf8_ascii (hw c mem_cons_self), ih fun x hx => hw x (mem_cons_of_mem c hx), map_cons]

theorem literal_follows (hw : ∀ c ∈ w, c.toNat < 128) (t : List Char) :
    Follows Left (literal w (utf8 t)) (Oif.literal w t) := by
  unfold literal Oif.literal
  rw [isPrefixOf_utf8 hw]
  split
  · rename_i h
    obtain ⟨u, rfl⟩ := isPrefixOf_iff_prefix.mp h
    refine .ok ?_
    rw [Left, utf8_append, utf8_of_ascii hw, drop_left, ← length_map (f := byte), drop_left]
  · exact .error

/-! ## Strings -/

theorem hexDigit_byte (hc : c.toNat < 128) : hexDigit (byte c) = Oif.hexDigit c := by
  have hle : ∀ d : Char, d.toNat < 128 →
      ((byte d ≤ byte c ↔ d ≤ c) ∧ (byte c ≤ byte d ↔ c ≤ d)) := by
    intro d hd
    simp only [UInt8.le_iff_toNat_le, byte_toNat hc, byte_toNat hd]
    exact ⟨Iff.rfl, Iff.rfl⟩
  unfold hexDigit Oif.hexDigit
  simp only [hle '0' (by decide), hle '9' (by decide), hle 'a' (by decide), hle 'f' (by decide),
    hle 'A' (by decide), hle 'F' (by decide), byte_toNat hc]

variable {n : ℕ}

theorem lt_of_hexDigit (h : hexDigit b = some n) : b.toNat < 128 := by
  unfold hexDigit at h
  split at h
  · rename_i hb
    exact Nat.lt_of_le_of_lt hb.2 (by decide)
  · split at h
    · rename_i hb
      exact Nat.lt_of_le_of_lt hb.2 (by decide)
    · split at h
      · rename_i hb
        exact Nat.lt_of_le_of_lt hb.2 (by decide)
      · cases h

theorem lt_of_hexDigit_char (h : Oif.hexDigit c = some n) : c.toNat < 128 := by
  unfold Oif.hexDigit at h
  split at h
  · rename_i hc
    exact Nat.lt_of_le_of_lt hc.2 (by decide)
  · split at h
    · rename_i hc
      exact Nat.lt_of_le_of_lt hc.2 (by decide)
    · split at h
      · rename_i hc
        exact Nat.lt_of_le_of_lt hc.2 (by decide)
      · cases h

theorem parseHex_eq_some {a c d : UInt8} (h : parseHex a b c d = some n) :
    a.toNat < 128 ∧ b.toNat < 128 ∧ c.toNat < 128 ∧ d.toNat < 128 := by
  simp only [parseHex, Option.bind_eq_bind, Option.bind_eq_some_iff] at h
  obtain ⟨_, ha, _, hb, _, hc, _, hd, -⟩ := h
  exact ⟨lt_of_hexDigit ha, lt_of_hexDigit hb, lt_of_hexDigit hc, lt_of_hexDigit hd⟩

theorem hex_eq_some {a b : Char} (h : Oif.hex a b c d = some n) :
    a.toNat < 128 ∧ b.toNat < 128 ∧ c.toNat < 128 ∧ d.toNat < 128 := by
  simp only [Oif.hex, Option.bind_eq_bind, Option.bind_eq_some_iff] at h
  obtain ⟨_, ha, _, hb, _, hc, _, hd, -⟩ := h
  exact ⟨lt_of_hexDigit_char ha, lt_of_hexDigit_char hb, lt_of_hexDigit_char hc,
    lt_of_hexDigit_char hd⟩

theorem parseHex_byte {a b : Char}
    (h : a.toNat < 128 ∧ b.toNat < 128 ∧ c.toNat < 128 ∧ d.toNat < 128) :
    parseHex (byte a) (byte b) (byte c) (byte d) = Oif.hex a b c d := by
  rw [parseHex, Oif.hex, hexDigit_byte h.1, hexDigit_byte h.2.1, hexDigit_byte h.2.2.1,
    hexDigit_byte h.2.2.2]

theorem hex_utf8 (t : List Char) :
    (∃ a b c d u n, t = a :: b :: c :: d :: u ∧ Oif.hex a b c d = some n ∧
      hex (utf8 t) = .ok (n, utf8 u)) ∨
    ((∀ a b c d u, t = a :: b :: c :: d :: u → Oif.hex a b c d = none) ∧
      ∃ s, hex (utf8 t) = .error (.invalidUnicodeEscape, s)) := by
  by_cases h : ∃ a b c d u n, t = a :: b :: c :: d :: u ∧ Oif.hex a b c d = some n
  · obtain ⟨a, b, c, d, u, n, rfl, hn⟩ := h
    have hlt := hex_eq_some hn
    refine .inl ⟨a, b, c, d, u, n, rfl, hn, ?_⟩
    rw [utf8_ascii hlt.1, utf8_ascii hlt.2.1, utf8_ascii hlt.2.2.1, utf8_ascii hlt.2.2.2, hex,
      parseHex_byte hlt, hn]
  · refine .inr ⟨?_, ?_⟩
    · intro a b c d u ht
      cases hn : Oif.hex a b c d with
      | none => rfl
      | some n => exact absurd ⟨a, b, c, d, u, n, ht, hn⟩ h
    · unfold hex
      split
      · rename_i w x y z s hs
        cases hn : parseHex w x y z with
        | none => exact ⟨_, rfl⟩
        | some n =>
          obtain ⟨hw, hx, hy, hz⟩ := parseHex_eq_some hn
          obtain ⟨a, _, rfl, ha, rfl, hs₁⟩ := exists_of_utf8_cons hs hw
          obtain ⟨b, _, rfl, hb, rfl, hs₂⟩ := exists_of_utf8_cons hs₁.symm hx
          obtain ⟨c, _, rfl, hc, rfl, hs₃⟩ := exists_of_utf8_cons hs₂.symm hy
          obtain ⟨d, u, rfl, hd, rfl, -⟩ := exists_of_utf8_cons hs₃.symm hz
          rw [parseHex_byte ⟨ha, hb, hc, hd⟩] at hn
          exact absurd ⟨a, b, c, d, u, n, rfl, hn⟩ h
      · exact ⟨_, rfl⟩

def plainChar (c : Char) : Bool := !(c == '"' || c == '\\' || c.toNat < 0x20)

theorem plainEnd_utf8 (t : List Char) : plainEnd (utf8 t) = utf8 (t.dropWhile plainChar) := by
  rw [plainEnd_eq]
  refine dropWhile_utf8 (v := true) ?_ ?_ ?_ t
  · intro c hc
    have hlt : byte c < 0x20 ↔ c.toNat < 0x20 := by
      rw [UInt8.lt_iff_toNat_lt, byte_toNat hc]
      rfl
    rw [isPlain, plainChar, byte_beq hc (by decide), byte_beq hc (by decide),
      decide_eq_decide.mpr hlt]
  · intro b hb
    have hlt : ¬b < 0x20 := by
      rw [UInt8.lt_iff_toNat_lt, Nat.not_lt]
      exact Nat.le_trans (by decide) hb
    simp [isPlain, ne_byte hb (show '"'.toNat < 128 by decide),
      ne_byte hb (show '\\'.toNat < 128 by decide), hlt]
  · intro c hc
    simp [plainChar, ne_ascii hc (show '"'.toNat < 128 by decide),
      ne_ascii hc (show '\\'.toNat < 128 by decide), show ¬c.toNat < 0x20 by omega]

theorem stringTail_dropWhile (t : List Char) :
    stringTail t = stringTail (t.dropWhile plainChar) := by
  induction t with
  | nil => rfl
  | cons c t ih =>
    rw [dropWhile_cons]
    split
    · rename_i hc
      simp only [plainChar, Bool.not_eq_true', Bool.or_eq_false_iff, beq_eq_false_iff_ne,
        decide_eq_false_iff_not] at hc
      rw [← ih]
      exact passed_plain hc.1.1 hc.2 hc.1.2 t
    · rfl

variable {e : Char}

theorem mem_simple : e ∈ simple ↔ (simpleEscape e).isSome = true := by
  unfold simpleEscape simple
  split <;> simp_all

theorem lt_of_mem_simple (h : e ∈ simple) : e.toNat < 128 := by
  simp only [simple, mem_cons, not_mem_nil, or_false] at h
  rcases h with rfl | rfl | rfl | rfl | rfl | rfl | rfl | rfl <;> decide

theorem byte_mem_simple (he : e.toNat < 128) : byte e ∈ simple.map byte ↔ e ∈ simple := by
  rw [mem_map]
  constructor
  · rintro ⟨d, hd, h⟩
    rwa [← (byte_inj (lt_of_mem_simple hd) he).mp h]
  · intro h
    exact ⟨e, h, rfl⟩

theorem plainChar_head (h : t.dropWhile plainChar = c :: u) :
    c = '"' ∨ c = '\\' ∨ c.toNat < 0x20 := by
  have hne : t.dropWhile plainChar ≠ [] := h ▸ cons_ne_nil c u
  have := head_dropWhile_not plainChar hne
  simp only [h, head_cons, plainChar, Bool.not_eq_false', Bool.or_eq_true, beq_iff_eq,
    decide_eq_true_eq] at this
  tauto

theorem take_utf8_self (hc : c.toNat < 128) (t : List Char) :
    take c (utf8 (c :: t)) = some (utf8 t) := by
  rw [take_utf8 hc, after, if_pos rfl, Option.map_some]

theorem take_utf8_none (hc : c.toNat < 128) (ht : ∀ u, t ≠ c :: u) : take c (utf8 t) = none := by
  rw [take_utf8 hc]
  cases t with
  | nil => rfl
  | cons d t =>
    have hd : d ≠ c := by
      rintro rfl
      exact ht t rfl
    rw [after, if_neg hd, Option.map_none]

theorem utf8_length_lt (h : t = w ++ u) (hlen : (utf8 t).length < n) : (utf8 u).length < n := by
  rw [h, utf8_append, length_append] at hlen
  omega

/-- A loop on bytes goes as the reading of the rest of a string does, on fewer bytes than `n`. -/
def Tails (n : ℕ) (next : Bytes → Except Stop Bytes) : Prop :=
  ∀ t, (utf8 t).length < n → Follows Left (next (utf8 t)) (stringTail t)

section Escapes

variable {next : Bytes → Except Stop Bytes} {a b : Char} {high : ℕ}

theorem pairEnd_follows (hnext : Tails n next) (hn : Oif.hex a b c d = some high)
    (hlow : ¬isLow high = true) (hhigh : isHigh high = true) (hlen : (utf8 u).length < n) :
    Follows Left (pairEnd next (utf8 u)) (stringTail ('\\' :: 'u' :: a :: b :: c :: d :: u)) := by
  generalize hx : pairEnd next (utf8 u) = x
  unfold pairEnd at hx
  rw [stringTail.eq_def]
  simp only [if_neg (show ¬ '\\' = '"' by decide), if_neg (show ¬ '\\'.toNat < 0x20 by decide),
    if_neg (show ¬ '\\' ≠ '\\' by decide), if_pos, hn, if_neg hlow, if_pos hhigh]
  split
  · rename_i a' b' c' d' v
    simp only [take_utf8_self (show '\\'.toNat < 128 by decide),
      take_utf8_self (show 'u'.toNat < 128 by decide)] at hx
    rcases hex_utf8 (a' :: b' :: c' :: d' :: v) with ⟨_, _, _, _, _, low, e, hlow', hok⟩ |
      ⟨hnone, s, herr⟩
    · cases e
      rw [hlow', ← hx, hok]
      dsimp only [bind, Except.bind]
      split
      · exact hnext v (utf8_length_lt (w := ['\\', 'u', a', b', c', d']) rfl hlen)
      · exact .error
    · rw [hnone a' b' c' d' v rfl, ← hx, herr]
      exact .error
  · rename_i v hv
    simp only [take_utf8_self (show '\\'.toNat < 128 by decide),
      take_utf8_self (show 'u'.toNat < 128 by decide)] at hx
    rcases hex_utf8 v with ⟨a', b', c', d', w, _, rfl, -, -⟩ | ⟨-, s, herr⟩
    · exact absurd rfl (hv a' b' c' d' w)
    · rw [← hx, herr]
      exact .error
  · rename_i v _ hv
    simp only [take_utf8_self (show '\\'.toNat < 128 by decide)] at hx
    rw [take_utf8_none (by decide) fun u e => hv u e] at hx
    rw [← hx]
    exact .error
  · rename_i hv
    rw [take_utf8_none (by decide) fun u e => hv u e] at hx
    rw [← hx]
    exact .error

theorem unicode_follows (hnext : Tails n next) (hlen : (utf8 u).length < n) :
    Follows Left (do
      let (n, s) ← hex (utf8 u)
      if isLow n then .error (.unpairedSurrogate, s)
      else if isHigh n then pairEnd next s
      else next s) (stringTail ('\\' :: 'u' :: u)) := by
  rcases hex_utf8 u with ⟨a, b, c, d, w, high, rfl, hn, hok⟩ | ⟨hnone, s, herr⟩
  · have hw : (utf8 w).length < n := utf8_length_lt (w := [a, b, c, d]) rfl hlen
    rw [hok]
    dsimp only [bind, Except.bind]
    split_ifs with hlow hhigh
    · rw [stringTail.eq_def]
      simp only [if_neg (show ¬ '\\' = '"' by decide), if_neg (show ¬ '\\'.toNat < 0x20 by decide),
        if_neg (show ¬ '\\' ≠ '\\' by decide), if_pos, hn, if_pos hlow]
      exact .error
    · exact pairEnd_follows hnext hn hlow hhigh hw
    · have := hnext w hw
      rwa [← passed_hex hn hlow hhigh w] at this
  · rw [herr, stringTail.eq_def]
    simp only [if_neg (show ¬ '\\' = '"' by decide), if_neg (show ¬ '\\'.toNat < 0x20 by decide),
      if_neg (show ¬ '\\' ≠ '\\' by decide), if_pos]
    split
    · rename_i a b c d w
      rw [hnone a b c d w rfl]
      exact .error
    · exact .error

theorem escapeEnd_follows (hnext : Tails n next) (hlen : (utf8 u).length < n) :
    Follows Left (escapeEnd next (utf8 u)) (stringTail ('\\' :: u)) := by
  have hinvalid : ∀ e v, e ≠ 'u' → ¬(simpleEscape e).isSome = true →
      stringTail ('\\' :: e :: v) = .error (.invalidEscape, v) := by
    intro e v he hnone
    rw [stringTail.eq_def]
    simp [he, hnone]
  cases u with
  | nil =>
    exact .error
  | cons e v =>
    have hv : (utf8 v).length < n := utf8_length_lt (w := [e]) rfl hlen
    by_cases he : e.toNat < 128
    · rw [utf8_ascii he, escapeEnd]
      simp only [byte_mem_simple he, mem_simple, byte_inj he (show 'u'.toNat < 128 by decide)]
      split_ifs with hsome hu
      · have := hnext v hv
        rwa [← passed_simple hsome v] at this
      · subst hu
        exact unicode_follows hnext hv
      · rw [hinvalid e v hu hsome]
        exact .error
    · have he := Nat.le_of_not_lt he
      obtain ⟨b, bs, hb, hwide⟩ := utf8_wide he
      have hb' := hwide b mem_cons_self
      have hbyte : b ∉ simple.map byte := by
        intro hmem
        obtain ⟨d, hd, rfl⟩ := mem_map.mp hmem
        exact ne_byte hb' (lt_of_mem_simple hd) rfl
      have hchar : e ∉ simple := fun hmem => ne_ascii he (lt_of_mem_simple hmem) rfl
      rw [utf8_cons, hb, cons_append, escapeEnd, if_neg hbyte,
        if_neg (ne_byte hb' (by decide)), hinvalid e v (ne_ascii he (by decide))
          (mt mem_simple.mpr hchar)]
      exact .error

end Escapes

theorem stringLoop_follows (fuel : ℕ) (t) (ht : (utf8 t).length < fuel) :
    Follows Left (stringLoop fuel (utf8 t)) (stringTail t) := by
  induction fuel generalizing t with
  | zero => exact absurd ht (Nat.not_lt_zero _)
  | succ fuel ih =>
    have hend : (utf8 (t.dropWhile plainChar)).length < fuel + 1 := by
      refine utf8_length_lt (w := t.takeWhile plainChar) ?_ ht
      exact takeWhile_append_dropWhile.symm
    rw [stringLoop, plainEnd_utf8, stringTail_dropWhile]
    cases hu : t.dropWhile plainChar with
    | nil =>
      exact .error
    | cons c u =>
      rw [hu] at hend
      have hc := plainChar_head hu
      have hascii : c.toNat < 128 := by
        rcases hc with rfl | rfl | hc
        · decide
        · decide
        · omega
      rw [utf8_ascii hascii] at hend ⊢
      have hlen : (utf8 u).length < fuel := Nat.lt_of_succ_lt_succ hend
      simp only [byte_inj hascii (show '"'.toNat < 128 by decide), ne_eq,
        byte_inj hascii (show '\\'.toNat < 128 by decide)]
      rcases hc with rfl | rfl | hc
      · rw [stringTail.eq_def]
        exact .ok rfl
      · simp only [if_neg (show ¬ '\\' = '"' by decide), not_true_eq_false, if_false,
          if_neg (show ¬byte '\\' < 0x20 by decide)]
        exact escapeEnd_follows ih hlen
      · have hquote : c ≠ '"' := by
          rintro rfl
          exact absurd hc (by decide)
        have hlow : byte c < 0x20 := by
          rw [UInt8.lt_iff_toNat_lt, byte_toNat hascii]
          exact hc
        rw [stringTail.eq_def]
        simp only [if_neg hquote, if_pos hlow, if_pos hc]
        exact .error

theorem string_follows (t : List Char) : Follows Left (string (utf8 t)) (Oif.string t) := by
  rw [string, take_utf8 (by decide)]
  cases t with
  | nil => exact .error
  | cons c t =>
    rw [after, Oif.string]
    split_ifs
    · exact stringLoop_follows _ t (Nat.lt_succ_self _)
    · exact .error

theorem scalar_follows (h : utf8 (c :: u) = b :: s) :
    Follows (fun x y => x.1 = y.1 ∧ x.2 = utf8 y.2) (scalar b (b :: s))
      (Oif.scalar c (c :: u)) := by
  have hmap :
    ∀ {x : Except Stop Bytes} {y : Except Fault (List Char)} (k : Kind), Follows Left x y →
      Follows (fun (x : Kind × Bytes) (y : Kind × List Char) => x.1 = y.1 ∧ x.2 = utf8 y.2)
        (x.map (k, ·)) (y.map (k, ·)) := fun k h => h.map fun _ _ hab => ⟨rfl, hab⟩
  rw [← h]
  unfold scalar Oif.scalar
  simp only [head_eq_byte h (show '"'.toNat < 128 by decide),
    head_eq_byte h (show 'n'.toNat < 128 by decide),
      head_eq_byte h (show 't'.toNat < 128 by decide),
    head_eq_byte h (show 'f'.toNat < 128 by decide)]
  split_ifs with hq hn ht hf
  · subst hq
    exact hmap _ (string_follows _)
  · subst hn
    exact hmap _ (literal_follows (by simp) _)
  · subst ht
    exact hmap _ (literal_follows (by simp) _)
  · subst hf
    exact hmap _ (literal_follows (by simp) _)
  · split
    · exact absurd rfl hq
    · exact absurd rfl hn
    · exact absurd rfl ht
    · exact absurd rfl hf
    · exact hmap _ (number_follows _)

end Olp.Oif.Scan
