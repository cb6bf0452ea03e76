import Olp.Oif.Reading
import Olp.Oif.Envelope

/-!
# Names and pointers

A name that `json.Marshal` writes is read back by the parser, up to the bytes that are not
UTF-8, which become the replacement character.  A pointer that is made of reference tokens
leads along them, and every pointer whose escapes are valid is made of tokens.
-/

namespace Olp.Oif

open List Option

/-! ## Names -/

/-- The character that a symbol becomes in a document. -/
def Sym.sane : Sym → Char
  | .char c => c
  | .stray _ => '�'

def Str.sane (s : Str) : List Char := s.map Sym.sane

@[simp] theorem sane_ofText (t : List Char) : (Str.ofText t).sane = t := by
  induction t with
  | nil => rfl
  | cons c t ih => exact congrArg (c :: ·) ih

theorem hex_control : ∀ n < 128, hex '0' '0' (hexChar (n / 16)) (hexChar (n % 16)) = some n := by
  decide

/-- What is written for a symbol is one piece of a string, which stands for its character. -/
theorem exists_piece (x : Sym) : ∃ p : Piece, marshalSym x = p.text ∧ Spells [p] x.sane := by
  have hsimple : ∀ e c : Char, simpleEscape e = some c →
      ∃ p : Piece, ['\\', e] = p.text ∧ Spells [p] c :=
    fun e c he => ⟨.escape e c he, rfl, .escape he⟩
  have hhex : ∀ (a b c d : Char) (n : ℕ), hex a b c d = some n → ¬isLow n = true →
      ¬isHigh n = true → ∃ p : Piece, ['\\', 'u', a, b, c, d] = p.text ∧ Spells [p] (.ofNat n) :=
    fun a b c d n hn hlow hhigh => ⟨.unit a b c d n hn, rfl, .unit hn hlow hhigh⟩
  cases x with
  | stray b => exact hhex 'f' 'f' 'f' 'd' 0xfffd (by decide) (by decide) (by decide)
  | char c =>
    simp only [marshalSym, Sym.sane]
    split
    · rename_i hc
      rcases hc with rfl | rfl
      · exact hsimple '\\' '\\' rfl
      · exact hsimple '"' '"' rfl
    rename_i hescape
    split
    · rename_i hc
      exact hsimple 'b' c (by rw [hc]; rfl)
    split
    · rename_i hc
      exact hsimple 'f' c (by rw [hc]; rfl)
    split
    · rename_i hc
      exact hsimple 'n' c (by rw [hc]; rfl)
    split
    · rename_i hc
      exact hsimple 'r' c (by rw [hc]; rfl)
    split
    · rename_i hc
      exact hsimple 't' c (by rw [hc]; rfl)
    split
    · rename_i hc
      have hlt : c.toNat < 128 := by
        rcases hc with hc | rfl | rfl | rfl
        · omega
        all_goals decide
      have := hhex '0' '0' _ _ c.toNat (hex_control _ hlt)
        (by simp only [isLow, Bool.and_eq_true, decide_eq_true_eq]; omega)
        (by simp only [isHigh, Bool.and_eq_true, decide_eq_true_eq]; omega)
      rwa [Char.ofNat_toNat] at this
    rename_i hplain
    split
    · rename_i hc
      have hn : hex '2' '0' '2' (hexChar (c.toNat % 16)) = some c.toNat := by
        rcases hc with hc | hc <;> rw [hc] <;> decide
      have := hhex '2' '0' '2' _ c.toNat hn
        (by simp only [isLow, Bool.and_eq_true, decide_eq_true_eq]; omega)
        (by simp only [isHigh, Bool.and_eq_true, decide_eq_true_eq]; omega)
      rwa [Char.ofNat_toNat] at this
    · rw [not_or] at hescape hplain
      have hc : c ≠ '"' ∧ 0x20 ≤ c.toNat ∧ c ≠ '\\' :=
        ⟨hescape.2, Nat.not_lt.mp hplain.1, hescape.1⟩
      exact ⟨.plain c hc, rfl, .plain hc⟩

variable (name : Str)

theorem marshal_quoted : ∃ ps, marshal name = quoted ps ∧ meaning ps = some name.sane := by
  have hinside : ∃ ps, name.flatMap marshalSym = ps.flatMap Piece.text ∧
      meaning ps = some name.sane := by
    induction name with
    | nil => exact ⟨[], rfl, rfl⟩
    | cons x name ih =>
      obtain ⟨p, hp, hspells⟩ := exists_piece x
      obtain ⟨ps, hps, hmeaning⟩ := ih
      refine ⟨p :: ps, ?_, ?_⟩
      · rw [flatMap_cons, flatMap_cons, hp, hps]
      · rw [← singleton_append, hspells.meaning, hmeaning]
        rfl
  obtain ⟨ps, hps, hmeaning⟩ := hinside
  exact ⟨ps, by rw [marshal, hps, quoted], hmeaning⟩

theorem marshal_takes : Takes string (fun _ => True) (marshal name) := by
  obtain ⟨ps, hps, hmeaning⟩ := marshal_quoted name
  rw [hps]
  exact quoted_takes hmeaning

theorem memberName_marshal : memberName (marshal name) = name.sane := by
  obtain ⟨ps, hps, hmeaning⟩ := marshal_quoted name
  rw [hps, memberName_quoted hmeaning]

/-! ## Tokens -/

abbrev slash : Sym := .char '/'

def escapeSym (x : Sym) : Str :=
  if x = .char '~' then [.char '~', .char '0']
  else if x = slash then [.char '~', .char '1'] else [x]

theorem escape_eq : escape name = name.flatMap escapeSym := by
  unfold escape
  rw [flatMap_assoc]
  congr 1
  funext x
  unfold escapeSym
  by_cases h : x = .char '~'
  · simp [h]
  · by_cases h' : x = slash
    · simp [h']
    · simp [h, h']

@[simp] theorem escape_nil : escape [] = [] := rfl

variable (s : Str)

@[simp] theorem escape_cons (x : Sym) (s : Str) : escape (x :: s) = escapeSym x ++ escape s := by
  rw [escape_eq, escape_eq, flatMap_cons]

theorem slash_not_mem_escape : slash ∉ escape name := by
  induction name with
  | nil => simp
  | cons x s ih =>
    rw [escape_cons, mem_append, not_or]
    refine ⟨?_, ih⟩
    unfold escapeSym
    split
    · decide
    · split
      · decide
      · rename_i h
        simpa using Ne.symm h

theorem decode_escape : decode (escape name) = some name := by
  induction name with
  | nil => rfl
  | cons x s ih =>
    rw [escape_cons]
    unfold escapeSym
    split
    · rename_i h
      rw [h]
      rw [decode.eq_def]
      simp [ih]
    · split
      · rename_i h
        rw [h]
        rw [decode.eq_def]
        simp [ih]
      · rename_i h h'
        rw [singleton_append, decode.eq_def]
        simp [h, ih]

theorem escape_of_decode {s name : Str} (hs : slash ∉ s) (h : decode s = some name) :
    escape name = s := by
  fun_induction decode s generalizing name with
  | case1 =>
    cases h
    rfl
  | case2 x s hx ih =>
    rw [mem_cons, not_or] at hs
    obtain ⟨u, hu, rfl⟩ := map_eq_some_iff.mp h
    rw [escape_cons, ih hs.2 hu, escapeSym, if_neg hx, if_neg (Ne.symm hs.1)]
    rfl
  | case3 x hx => cases h
  | case4 x hx s ih | case5 x hx s h0 ih =>
    obtain rfl := not_not.mp hx
    obtain ⟨u, hu, rfl⟩ := map_eq_some_iff.mp h
    rw [escape_cons, ih (fun h => hs (by simp [h])) hu]
    rfl
  | case6 => cases h

theorem replacePair_cons {a b new x : Sym} (h : x ≠ a) (s : Str) :
    replacePair a b new (x :: s) = x :: replacePair a b new s := by
  cases s with
  | nil => rfl
  | cons y s => simp [replacePair, h]

/-- The two passes of `unescape` are the one pass of a lookup. -/
theorem unescape_eq_decode : unescape s = decode s := by
  unfold unescape
  fun_induction decode s with
  | case1 => rfl
  | case2 x s hx ih =>
    rw [escapesValid.eq_def]
    simp only [if_pos hx, ← ih]
    split
    · simp only [map_some]
      congr 1
      rw [replacePair_cons hx, replacePair_cons hx]
    · rfl
  | case3 x hx =>
    obtain rfl := not_not.mp hx
    rfl
  | case4 x hx s ih =>
    obtain rfl := not_not.mp hx
    have hvalid : escapesValid (.char '~' :: .char '0' :: s) = escapesValid s := by
      rw [escapesValid.eq_def]
      simp
    rw [hvalid, ← ih]
    split
    · -- the zero keeps the tilde from the first pass
      have hfirst : replacePair (.char '~') (.char '1') (.char '/') (.char '~' :: .char '0' :: s) =
          .char '~' :: .char '0' :: replacePair (.char '~') (.char '1') (.char '/') s := by
        rw [replacePair, if_neg (by decide), replacePair_cons (by decide)]
      rw [map_some, hfirst, replacePair, if_pos ⟨rfl, rfl⟩]
    · rfl
  | case5 x hx s h0 ih =>
    obtain rfl := not_not.mp hx
    have hvalid : escapesValid (.char '~' :: .char '1' :: s) = escapesValid s := by
      rw [escapesValid.eq_def]
      simp
    rw [hvalid, ← ih]
    split
    · rw [map_some, replacePair, if_pos (by decide), replacePair_cons (by decide)]
    · rfl
  | case6 x hx y s h0 h1 =>
    obtain rfl := not_not.mp hx
    rw [escapesValid.eq_def]
    simp [h0, h1]

/-! ## Pointers made of tokens -/

def pointerTo (path : List Str) : Str := path.flatMap fun k => slash :: escape k

@[simp] theorem pointerTo_nil : pointerTo [] = [] := rfl

variable (path : List Str) (k : Str)

theorem pointerTo_concat : pointerTo (path ++ [k]) = pointer (pointerTo path) k := by
  simp [pointerTo, pointer]

theorem pointerTo_cons (path : List Str) :
    pointerTo (k :: path) = slash :: (escape k ++ pointerTo path) := by
  simp [pointerTo]

/-- What a lookup does after the part of a pointer that leads to a node. -/
def follow (n : Node) (parts : List Str) : Option Node :=
  parts.foldlM (fun n part => (decode part).bind n.child) n

theorem follow_escape (n : Node) (path : List Str) (parts : List Str) :
    follow n (path.map escape ++ parts) = (walk Node.child n path).bind (follow · parts) := by
  induction path generalizing n with
  | nil => rfl
  | cons k path ih =>
    have hstep : follow n (escape k :: (path.map escape ++ parts)) =
        (n.child k).bind fun m => follow m (path.map escape ++ parts) := by
      simp [follow, decode_escape]
    rw [map_cons, cons_append, hstep, walk_cons, bind_assoc]
    congr 1
    funext m
    exact ih m

theorem splitOn_escape (s : Str) :
    (escape k ++ slash :: s).splitOn slash = escape k :: s.splitOn slash := by
  refine splitOnP_append_cons_of_forall_mem (fun x hx => ?_) slash (by simp) s
  rw [beq_eq_false_iff_ne]
  rintro rfl
  exact slash_not_mem_escape k hx

theorem splitOn_pointerTo (s : Str) :
    (escape k ++ (pointerTo path ++ slash :: s)).splitOn slash =
      (k :: path).map escape ++ s.splitOn slash := by
  induction path generalizing k with
  | nil => exact splitOn_escape k s
  | cons j path ih =>
    rw [pointerTo_cons, cons_append, append_assoc, splitOn_escape, ih j]
    rfl

theorem Document.lookup_below (d : Document) (path : List Str) (s : Str) :
    d.lookup (pointerTo path ++ slash :: s) =
      (walk Node.child d.root path).bind (follow · (s.splitOn slash)) := by
  cases path with
  | nil => simp [Document.lookup, follow]
  | cons k path =>
    rw [pointerTo_cons, cons_append, append_assoc]
    simp only [Document.lookup, ne_eq, not_true_eq_false, if_false]
    rw [splitOn_pointerTo]
    exact follow_escape d.root (k :: path) _

/-- `Lookup` of the pointer of a path walks along its tokens. -/
theorem Document.lookup_pointerTo (d : Document) (path : List Str) :
    d.lookup (pointerTo path) = walk Node.child d.root path := by
  rcases eq_nil_or_concat path with rfl | ⟨ks, k, rfl⟩
  · rfl
  · rw [concat_eq_append, pointerTo_concat, pointer, d.lookup_below, walk_concat,
      splitOn_eq_singleton (slash_not_mem_escape k)]
    congr 1
    funext n
    simp [follow, decode_escape]

theorem lastSlash_append (a : Str) {b : Str} (hb : slash ∉ b) :
    lastSlash (a ++ slash :: b) = some (a, b) := by
  have hnone : ∀ s : Str, slash ∉ s → lastSlash s = none := by
    intro s hs
    induction s with
    | nil => rfl
    | cons x s ih =>
      rw [mem_cons, not_or] at hs
      rw [lastSlash, ih hs.2]
      exact if_neg (Ne.symm hs.1)
  induction a with
  | nil =>
    rw [nil_append, lastSlash, hnone b hb]
    exact if_pos rfl
  | cons x a ih => rw [cons_append, lastSlash, ih]

theorem exists_lastSlash : slash ∉ s ∨ ∃ a b, s = a ++ slash :: b ∧ slash ∉ b := by
  induction s with
  | nil => exact .inl not_mem_nil
  | cons x s ih =>
    rcases ih with h | ⟨a, b, rfl, hb⟩
    · by_cases hx : x = slash
      · exact .inr ⟨[], s, by rw [hx]; rfl, h⟩
      · exact .inl (by simp [h, Ne.symm hx])
    · exact .inr ⟨x :: a, b, rfl, hb⟩

/-! ## Indices -/

theorem index_ofNat (i : ℕ) : index (.ofText (Text.ofNat i)) = some i := by
  have hzero : ¬(1 < (Text.ofNat i).length ∧ (Text.ofNat i).head? = some '0') := by
    rintro ⟨hlen, hhead⟩
    by_cases hi : i = 0
    · subst hi
      simp at hlen
    · exact Text.noLeadingZero_ofNat hi hhead
  simp only [index, Str.text?_ofText, bind_eq_bind, bind_some]
  simp [hzero, Text.isDigits_ofNat]

theorem index_eq_some {k : Str} {i : ℕ} (h : index k = some i) : k = .ofText (Text.ofNat i) := by
  obtain ⟨t, ht, hi⟩ := bind_eq_some_iff.mp h
  rw [Str.text?_eq_some] at ht
  subst ht
  split at hi
  · cases hi
  · rename_i hc
    cases hi
    simp only [not_or, not_and, not_not] at hc
    obtain ⟨hne, hlead, hd⟩ := hc
    congr 1
    by_cases hz : t.head? = some '0'
    · -- a zero alone
      obtain ⟨c, u, rfl⟩ := exists_cons_of_ne_nil hne
      obtain rfl : c = '0' := by simpa using hz
      obtain rfl : u = [] := by
        by_contra hu
        have := length_pos_iff.mpr hu
        exact hlead (by rw [length_cons]; omega) rfl
      decide
    · have hpos := Text.pow_le_value hd hz hne
      have : 0 < 10 ^ (t.length - 1) := Nat.pow_pos (by decide)
      refine Text.eq_of_value_eq_of_noLeadingZero hd (Text.isDigits_ofNat _) hz
        (Text.noLeadingZero_ofNat (by omega)) ?_
      rw [Text.value_ofNat]

end Olp.Oif
