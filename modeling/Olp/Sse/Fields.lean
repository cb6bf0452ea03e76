import Olp.Text
import Olp.Sse.Decoder

/-!
# Fields and their shortest wire form

`Encode` writes a frame in its shortest form, one line a field and one for each line of the data.
The fields that lines of a stream can set (`Fields.Decoded`) are within what `Encode` can write:
they are read back from their lines (`Fields.foldl_read_lines`), which are no longer than the
lines the fields were read from (`Fields.lineBytes_read_le`).
-/

namespace Olp.Sse

open List

/-! ## Encoding -/

/-- `strconv.FormatUint(n, 10)`. -/
def formatUint (n : ℕ) : Bytes := (Text.ofNat n).map fun c => UInt8.ofNat c.toNat

/-- The line of a field.  Decoding removes one leading space, so a second one is written before a
value that starts with one. -/
def fieldLine (name value : Bytes) : Bytes :=
  name ++
    if value ≠ [] then colon :: (if value.head? = some space then space :: value else value)
    else []

def encodeField (name value : Bytes) : Bytes := fieldLine name value ++ [lf]

/-- `Encode`. -/
def Frame.encode (f : Frame) : Bytes :=
  f.event.elim [] (encodeField (ascii "event")) ++
    f.id.elim [] (encodeField (ascii "id")) ++
    f.retryMS.elim [] (fun n => encodeField (ascii "retry") (formatUint n)) ++
    (if f.control then [] else (f.data.splitOn lf).flatMap (encodeField (ascii "data"))) ++ [lf]

/-! ## UTF-8 -/

variable {c : UInt8}

theorem validString_cons_ascii (hc : c < 0x80) (t : Bytes) :
    validString (c :: t) = validString t := by
  rw [validString.eq_def]
  exact if_pos hc

variable {s : Bytes}

theorem validString_ascii_append (hs : ∀ b ∈ s, b < 0x80) (t : Bytes) :
    validString (s ++ t) = validString t := by
  induction s with
  | nil => rfl
  | cons b s ih =>
    obtain ⟨hb, hs⟩ := forall_mem_cons.mp hs
    rw [cons_append, validString_cons_ascii hb, ih hs]

theorem ascii_of_all (h : s.all (fun b => decide (b < 0x80)) = true) : ∀ b ∈ s, b < 0x80 :=
  fun b hb => of_decide_eq_true (all_eq_true.mp h b hb)

theorem plain_of_all (h : s.all (fun b => !isTerminator b) = true) : Plain s :=
  fun b hb => by simpa using all_eq_true.mp h b hb

theorem inRange_ascii {lo hi : UInt8} (hc : c < 0x80) (hlo : 0x80 ≤ lo) :
    inRange lo hi c = false := by
  have h : ¬ lo ≤ c := fun h => absurd (UInt8.le_trans hlo h) (by simpa using hc)
  simp [inRange, h]

/-- An ASCII byte stands between two texts, never inside the encoding of a character. -/
theorem validString_append_cons (hc : c < 0x80) (s t : Bytes) :
    validString (s ++ c :: t) = (validString s && validString t) := by
  have hlow : ∀ b : UInt8, inRange (if b = 0xE0 then 0xA0 else 0x80)
      (if b = 0xED then 0x9F else 0xBF) c = false := by
    intro b
    apply inRange_ascii hc
    split <;> decide
  have hfour : ∀ b : UInt8, inRange (if b = 0xF0 then 0x90 else 0x80)
      (if b = 0xF4 then 0x8F else 0xBF) c = false := by
    intro b
    apply inRange_ascii hc
    split <;> decide
  have htail : inRange 0x80 0xBF c = false := inRange_ascii hc (by decide)
  fun_induction validString s with
  | case1 => rw [nil_append, validString.eq_def]; simp [hc]
  | case2 b bs h ih => rw [cons_append, validString.eq_def]; simp [h, ih]
  | case3 b h h2 d rest ih =>
    rw [cons_append, validString.eq_def]
    simp [h, h2, ih, Bool.and_assoc]
  | case4 b h h2 => rw [cons_append, validString.eq_def]; simp [h, h2, htail]
  | case5 b h h2 h3 d e rest ih =>
    rw [cons_append, validString.eq_def]
    simp only [h, h2, h3, ih, Bool.and_assoc, cons_append]
    rfl
  | case6 b bs h h2 h3 hx =>
    -- the sequence is cut short by the ASCII byte
    rw [cons_append, validString.eq_def]
    rcases bs with - | ⟨d, - | ⟨e, rest⟩⟩
    · cases t <;> simp [h, h2, h3, hlow]
    · simp [h, h2, h3, htail]
    · exact absurd rfl (hx d e rest)
  | case7 b h h2 h3 h4 d e g rest ih =>
    rw [cons_append, validString.eq_def]
    simp only [h, h2, h3, h4, ih, Bool.and_assoc, cons_append]
    rfl
  | case8 b bs h h2 h3 h4 hx =>
    rw [cons_append, validString.eq_def]
    rcases bs with - | ⟨d, - | ⟨e, - | ⟨g, rest⟩⟩⟩
    · rcases t with - | ⟨x, - | ⟨y, t⟩⟩ <;> simp [h, h2, h3, h4, hfour]
    · cases t <;> simp [h, h2, h3, h4, htail]
    · simp [h, h2, h3, h4, htail]
    · exact absurd rfl (hx d e g rest)
  | case9 b bs h h2 h3 h4 => rw [cons_append, validString.eq_def]; simp [h, h2, h3, h4]

/-! ## Lines of fields -/

theorem line_cases (line : Bytes) :
    line = fieldName line ∧ fieldValue line = [] ∨
      (fieldValue line).head? ≠ some space ∧ line = fieldName line ++ colon :: fieldValue line ∨
      line = fieldName line ++ colon :: space :: fieldValue line := by
  have happ : line = fieldName line ++ line.dropWhile (· != colon) :=
    takeWhile_append_dropWhile.symm
  cases hd : line.dropWhile (· != colon) with
  | nil => exact .inl ⟨by rw [hd, append_nil] at happ; exact happ, by simp [fieldValue, hd]⟩
  | cons c rest =>
    have hc : c = colon := by
      have h := head?_dropWhile_not (· != colon) line
      rw [hd] at h
      simpa using h
    subst hc
    rw [hd] at happ
    right
    by_cases hs : rest.head? = some space
    · obtain ⟨v, rfl⟩ := head?_eq_some_iff.mp hs
      right
      simpa [fieldValue, hd] using happ
    · left
      simp only [fieldValue, hd, drop_succ_cons, drop_zero, if_neg hs]
      exact ⟨hs, happ⟩

variable {name : Bytes}

theorem fieldName_fieldLine (hn : colon ∉ name) (value : Bytes) :
    fieldName (fieldLine name value) = name := by
  have hall : ∀ b ∈ name, (b != colon) = true := by
    intro b hb
    exact bne_iff_ne.mpr fun h => hn (h ▸ hb)
  unfold fieldName fieldLine
  rw [takeWhile_append_of_pos hall]
  split
  · simp
  · simp

theorem fieldValue_fieldLine (hn : colon ∉ name) (value : Bytes) :
    fieldValue (fieldLine name value) = value := by
  have hall : ∀ b ∈ name, (b != colon) = true := by
    intro b hb
    exact bne_iff_ne.mpr fun h => hn (h ▸ hb)
  unfold fieldValue fieldLine
  rw [dropWhile_append_of_pos hall]
  by_cases hv : value = []
  · simp [hv]
  · by_cases hs : value.head? = some space
    · simp [hv, hs]
    · simp [hv, hs]

theorem length_fieldLine_le (line : Bytes) :
    (fieldLine (fieldName line) (fieldValue line)).length ≤ line.length := by
  rcases line_cases line with ⟨hl, hv⟩ | ⟨hs, hl⟩ | hl
  · rw [hv]
    nth_rewrite 2 [hl]
    simp [fieldLine]
  · nth_rewrite 3 [hl]
    unfold fieldLine
    split <;> simp
  · nth_rewrite 3 [hl]
    unfold fieldLine
    split
    · split <;> simp
    · simp

variable {v : Bytes}

theorem length_fieldLine_mono {w : Bytes} (hv : v.head? ≠ some space) (hw : w ≠ [])
    (h : v.length ≤ w.length) : (fieldLine name v).length ≤ (fieldLine name w).length := by
  have hlow : (fieldLine name v).length ≤ name.length + (v.length + 1) := by
    unfold fieldLine
    split <;> simp
  have hhigh : name.length + (w.length + 1) ≤ (fieldLine name w).length := by
    unfold fieldLine
    rw [if_pos hw]
    split <;> simp
  omega

/-- Bytes that may stand in a line. -/
structure Clean (bs : Bytes) : Prop where
  plain : Plain bs
  valid : validString bs = true

theorem Clean.fieldValue {line : Bytes} (h : Clean line) : Clean (fieldValue line) := by
  have hsuffix : ∀ c rest, c < 0x80 → line = fieldName line ++ c :: rest → Clean rest := by
    intro c rest hc hl
    have hv := h.valid
    rw [hl, validString_append_cons hc, Bool.and_eq_true] at hv
    exact ⟨fun b hb => h.plain b (by rw [hl]; simp [hb]), hv.2⟩
  rcases line_cases line with ⟨-, hv⟩ | ⟨-, hl⟩ | hl
  · rw [hv]
    exact ⟨by simp [Plain], rfl⟩
  · exact hsuffix _ _ (by decide) hl
  · have hs := hsuffix _ _ (by decide) hl
    refine ⟨fun b hb => hs.plain b (mem_cons_of_mem _ hb), ?_⟩
    rw [← validString_cons_ascii (show space < 0x80 by decide)]
    exact hs.valid

/-- A field name as `Encode` writes it. -/
structure IsName (name : Bytes) : Prop where
  colon_notMem : colon ∉ name
  ascii : ∀ b ∈ name, b < 0x80
  plain : Plain name
  head : ∃ b rest, name = b :: rest ∧ b ≠ 0xEF

theorem Clean.fieldLine {name value : Bytes} (hn : IsName name) (h : Clean value) :
    Clean (fieldLine name value) := by
  have happ : Sse.fieldLine name value = name ∨ Sse.fieldLine name value = name ++ colon :: value ∨
      Sse.fieldLine name value = name ++ [colon, space] ++ value := by
    unfold Sse.fieldLine
    split
    · split <;> simp
    · simp
  have hkey : ∀ sep : Bytes, (∀ b ∈ sep, b < 0x80) → Plain sep → Clean (name ++ sep ++ value) := by
    intro sep ha hp
    refine ⟨?_, ?_⟩
    · intro b hb
      rcases mem_append.mp hb with hb | hb
      · exact (mem_append.mp hb).elim (hn.plain b) (hp b)
      · exact h.plain b hb
    · rw [append_assoc, validString_ascii_append hn.ascii, validString_ascii_append ha, h.valid]
  rcases happ with he | he | he <;> rw [he]
  · refine ⟨hn.plain, ?_⟩
    rw [← append_nil name, validString_ascii_append hn.ascii]
    rfl
  · have := hkey [colon] (ascii_of_all rfl) (plain_of_all rfl)
    simpa using this
  · exact hkey [colon, space] (ascii_of_all rfl) (plain_of_all rfl)

theorem isName_event : IsName (ascii "event") :=
  ⟨by decide, ascii_of_all rfl, plain_of_all rfl, _, _, rfl, by decide⟩

theorem isName_id : IsName (ascii "id") :=
  ⟨by decide, ascii_of_all rfl, plain_of_all rfl, _, _, rfl, by decide⟩

theorem isName_retry : IsName (ascii "retry") :=
  ⟨by decide, ascii_of_all rfl, plain_of_all rfl, _, _, rfl, by decide⟩

theorem isName_data : IsName (ascii "data") :=
  ⟨by decide, ascii_of_all rfl, plain_of_all rfl, _, _, rfl, by decide⟩

/-! ## Retry times -/

theorem clean_formatUint (n : ℕ) : Clean (formatUint n) := by
  have hb : ∀ b ∈ formatUint n, 48 ≤ b.toNat ∧ b.toNat ≤ 57 := by
    intro b hb
    obtain ⟨c, hc, rfl⟩ := mem_map.mp hb
    have hd := Text.digit_toNat (Text.isDigits_ofNat n c hc)
    simp only [UInt8.toNat_ofNat']
    omega
  refine ⟨?_, ?_⟩
  · intro b h
    have := hb b h
    simp only [isTerminator, cr, lf, Bool.or_eq_false_iff, beq_eq_false_iff_ne, ne_eq,
      ← UInt8.toNat_inj]
    simp
    omega
  · rw [← append_nil (formatUint n), validString_ascii_append]
    · rfl
    · intro b h
      have := hb b h
      rw [UInt8.lt_iff_toNat_lt]
      simp
      omega

theorem formatUint_ne_nil (n : ℕ) : formatUint n ≠ [] := by
  simp [formatUint]

theorem all_isDigit_formatUint (n : ℕ) : (formatUint n).all isDigit = true := by
  rw [all_eq_true]
  intro b hb
  obtain ⟨c, hc, rfl⟩ := mem_map.mp hb
  have hd := Text.digit_toNat (Text.isDigits_ofNat n c hc)
  simp only [isDigit, inRange, UInt8.le_iff_toNat_le, UInt8.toNat_ofNat', Bool.and_eq_true,
    decide_eq_true_eq]
  simp
  omega

variable {n : ℕ}

theorem parseUint_formatUint (hn : n < 2 ^ 64) : parseUint (formatUint n) = some n := by
  have hfold : ∀ (t : Text) (k : ℕ), Text.IsDigits t →
      (t.map fun c => UInt8.ofNat c.toNat).foldl (fun n b => 10 * n + (b.toNat - 48)) k =
        Nat.ofDigitChars 10 t k := by
    intro t
    induction t with
    | nil => intro k _; simp
    | cons c t ih =>
      intro k ht
      obtain ⟨hc, ht⟩ := Text.isDigits_cons.mp ht
      have hd := Text.digit_toNat hc
      rw [map_cons, foldl_cons, ih _ ht, Nat.ofDigitChars_cons]
      have h0 : '0'.toNat = 48 := rfl
      congr 2
      simp only [UInt8.toNat_ofNat']
      omega
  have hv : Nat.ofDigitChars 10 (Text.ofNat n) 0 = n := Text.value_ofNat n
  rw [parseUint, formatUint, hfold _ _ (Text.isDigits_ofNat n), hv]
  exact if_pos hn

theorem length_formatUint_le {value : Bytes} (hne : value ≠ []) (hd : value.all isDigit = true)
    (h : parseUint value = some n) :
    (formatUint n).length ≤ value.length := by
  have hfold : ∀ (v : Bytes) (k : ℕ), v.all isDigit = true →
      v.foldl (fun n b => 10 * n + (b.toNat - 48)) k < (k + 1) * 10 ^ v.length := by
    intro v
    induction v with
    | nil => intro k _; simp
    | cons b v ih =>
      intro k hv
      simp only [all_cons, Bool.and_eq_true, isDigit, inRange, decide_eq_true_eq,
        UInt8.le_iff_toNat_le] at hv
      have hb : b.toNat - 48 ≤ 9 := by
        have := hv.1.2
        simp at this
        omega
      calc v.foldl (fun n b => 10 * n + (b.toNat - 48)) (10 * k + (b.toNat - 48))
          < (10 * k + (b.toNat - 48) + 1) * 10 ^ v.length := ih _ hv.2
        _ ≤ (10 * (k + 1)) * 10 ^ v.length := Nat.mul_le_mul_right _ (by omega)
        _ = (k + 1) * 10 ^ (b :: v).length := by rw [length_cons, pow_succ]; ring
  have hn : n < 10 ^ value.length := by
    simp only [parseUint] at h
    split at h
    · cases h
      simpa using hfold value 0 hd
    · cases h
  rw [formatUint, length_map]
  exact Text.length_ofNat_le (length_pos_iff.mpr hne) hn

/-! ## Fields -/

/-- What a line that is neither blank nor a comment does to the fields. -/
theorem Fields.read_cases (f : Fields) (line : Bytes) :
    f.read line = f ∨
      fieldName line = ascii "data" ∧
        f.read line = { f with data := f.data ++ [fieldValue line] } ∨
      fieldName line = ascii "event" ∧ fieldValue line ≠ [] ∧
        f.read line = { f with event := some (fieldValue line) } ∨
      fieldName line = ascii "event" ∧ f.read line = { f with event := none } ∨
      fieldName line = ascii "id" ∧ (fieldValue line).contains 0 = false ∧
        f.read line = { f with id := some (fieldValue line) } ∨
      ∃ n, fieldName line = ascii "retry" ∧ fieldValue line ≠ [] ∧
        (fieldValue line).all isDigit = true ∧ parseUint (fieldValue line) = some n ∧
        f.read line = { f with retry := some n } := by
  unfold Fields.read
  dsimp only
  split
  · next h => exact .inr (.inl ⟨h, rfl⟩)
  split
  · next h =>
      by_cases hv : fieldValue line ≠ []
      · exact .inr (.inr (.inl ⟨h, hv, by rw [if_pos hv]⟩))
      · exact .inr (.inr (.inr (.inl ⟨h, by rw [if_neg hv]⟩)))
  split
  · next h =>
      split
      · exact .inl rfl
      · next hz => exact .inr (.inr (.inr (.inr (.inl ⟨h, by simpa using hz, rfl⟩))))
  split
  · next h =>
      split
      · next hv =>
          split
          · next n hn => exact .inr (.inr (.inr (.inr (.inr ⟨n, h, hv.1, hv.2, hn, rfl⟩))))
          · exact .inl rfl
      · exact .inl rfl
  · exact .inl rfl

/-- The fields that lines of a stream can set. -/
structure Fields.Decoded (f : Fields) : Prop where
  event : ∀ v, f.event = some v → v ≠ [] ∧ Clean v
  id : ∀ v, f.id = some v → v.contains 0 = false ∧ Clean v
  retry : ∀ n, f.retry = some n → n < 2 ^ 64
  data : ∀ v ∈ f.data, Clean v

theorem Fields.decoded_empty : Fields.empty.Decoded :=
  ⟨by simp [Fields.empty], by simp [Fields.empty], by simp [Fields.empty], by simp [Fields.empty]⟩

theorem parseUint_lt {value : Bytes} (h : parseUint value = some n) : n < 2 ^ 64 := by
  simp only [parseUint] at h
  split at h
  · next hn => cases h; exact hn
  · cases h

theorem Fields.Decoded.read {f : Fields} (h : f.Decoded) {line : Bytes} (hl : Clean line) :
    (f.read line).Decoded := by
  have hv := hl.fieldValue
  obtain he | ⟨-, he⟩ | ⟨-, hne, he⟩ | ⟨-, he⟩ | ⟨-, hz, he⟩ | ⟨n, -, -, -, hn, he⟩ :=
    f.read_cases line <;> rw [he]
  · exact h
  · refine ⟨h.event, h.id, h.retry, ?_⟩
    intro v hmem
    rcases mem_append.mp hmem with hmem | hmem
    · exact h.data v hmem
    · rw [mem_singleton.mp hmem]
      exact hv
  · exact ⟨fun v he => by cases he; exact ⟨hne, hv⟩, h.id, h.retry, h.data⟩
  · exact ⟨by simp, h.id, h.retry, h.data⟩
  · exact ⟨h.event, fun v he => by cases he; exact ⟨hz, hv⟩, h.retry, h.data⟩
  · exact ⟨h.event, h.id, fun m he => by cases he; exact parseUint_lt hn, h.data⟩

/-- The lines that `Encode` writes for the fields, without the blank one. -/
def Fields.lines (f : Fields) : List Bytes :=
  (f.event.map (fieldLine (ascii "event"))).toList ++ (f.id.map (fieldLine (ascii "id"))).toList ++
    (f.retry.map fun n => fieldLine (ascii "retry") (formatUint n)).toList ++
    f.data.map (fieldLine (ascii "data"))

variable {f : Fields}

theorem encode_frame (h : f.Decoded) : f.frame.encode = f.lines.flatMap (· ++ [lf]) ++ [lf] := by
  have hopt : ∀ {α : Type} (o : Option α) (g : α → Bytes),
      o.elim [] (fun v => g v ++ [lf]) = (o.map g).toList.flatMap (· ++ [lf]) := by
    intro α o g
    cases o <;> simp
  have hdata : (if f.frame.control then []
      else (f.frame.data.splitOn lf).flatMap (encodeField (ascii "data"))) =
      (f.data.map (fieldLine (ascii "data"))).flatMap (· ++ [lf]) := by
    cases hd : f.data with
    | nil => simp [Fields.frame, hd]
    | cons v vs =>
      have hlf : ∀ l ∈ f.data, lf ∉ l := fun l hl hmem =>
        absurd ((h.data l hl).plain lf hmem) (by decide)
      have hsplit : f.frame.data.splitOn lf = f.data :=
        splitOn_intercalate lf hlf (by simp [hd])
      rw [hsplit, hd, if_neg (by simp [Fields.frame, hd]), flatMap_map]
      rfl
  unfold Frame.encode Fields.lines
  rw [hdata]
  simp only [flatMap_append, append_cancel_right_eq]
  exact congrArg₂ (· ++ ·) (congrArg₂ (· ++ ·) (hopt f.event _) (hopt f.id _))
    (hopt f.retry fun n => fieldLine (ascii "retry") (formatUint n))

/-! ## Reading the fields back -/

theorem Fields.read_data (f : Fields) (v : Bytes) :
    f.read (fieldLine (ascii "data") v) = { f with data := f.data ++ [v] } := by
  rw [Fields.read, fieldName_fieldLine isName_data.colon_notMem,
    fieldValue_fieldLine isName_data.colon_notMem]
  exact if_pos rfl

theorem Fields.read_event (f : Fields) (hv : v ≠ []) :
    f.read (fieldLine (ascii "event") v) = { f with event := some v } := by
  have hd : ascii "event" ≠ ascii "data" := by decide
  rw [Fields.read, fieldName_fieldLine isName_event.colon_notMem,
    fieldValue_fieldLine isName_event.colon_notMem]
  simp [hd, hv]

theorem Fields.read_id (f : Fields) (hv : v.contains 0 = false) :
    f.read (fieldLine (ascii "id") v) = { f with id := some v } := by
  have hd : ascii "id" ≠ ascii "data" := by decide
  have he : ascii "id" ≠ ascii "event" := by decide
  rw [Fields.read, fieldName_fieldLine isName_id.colon_notMem,
    fieldValue_fieldLine isName_id.colon_notMem]
  simp only [hd, he, if_false, if_true, hv]
  rfl

theorem Fields.read_retry (f : Fields) (hn : n < 2 ^ 64) :
    f.read (fieldLine (ascii "retry") (formatUint n)) = { f with retry := some n } := by
  have hd : ascii "retry" ≠ ascii "data" := by decide
  have he : ascii "retry" ≠ ascii "event" := by decide
  have hi : ascii "retry" ≠ ascii "id" := by decide
  rw [Fields.read, fieldName_fieldLine isName_retry.colon_notMem,
    fieldValue_fieldLine isName_retry.colon_notMem]
  simp [hd, he, hi, ne_eq, formatUint_ne_nil, not_false_eq_true,
    all_isDigit_formatUint, and_self, parseUint_formatUint hn]

theorem Fields.foldl_read_data (vs : List Bytes) (f : Fields) :
    (vs.map (fieldLine (ascii "data"))).foldl Fields.read f = { f with data := f.data ++ vs } := by
  induction vs generalizing f with
  | nil => simp
  | cons v vs ih =>
    rw [map_cons, foldl_cons, f.read_data, ih, append_assoc, singleton_append]

theorem Fields.foldl_read_lines (h : f.Decoded) : f.lines.foldl Fields.read Fields.empty = f := by
  obtain ⟨event, id, retry, data⟩ := f
  have hevent : ((event.map (fieldLine (ascii "event"))).toList).foldl Fields.read Fields.empty =
      ⟨event, none, none, []⟩ := by
    cases event with
    | none => rfl
    | some v => exact Fields.read_event _ (h.event v rfl).1
  have hid : ((id.map (fieldLine (ascii "id"))).toList).foldl Fields.read ⟨event, none, none, []⟩ =
      ⟨event, id, none, []⟩ := by
    cases id with
    | none => rfl
    | some v => exact Fields.read_id _ (h.id v rfl).1
  have hretry : ((retry.map fun n => fieldLine (ascii "retry") (formatUint n)).toList).foldl
      Fields.read ⟨event, id, none, []⟩ = ⟨event, id, retry, []⟩ := by
    cases retry with
    | none => rfl
    | some n => exact Fields.read_retry _ (h.retry n rfl)
  rw [Fields.lines, foldl_append, foldl_append, foldl_append, hevent, hid, hretry,
    Fields.foldl_read_data, nil_append]

/-- A line of a field: neither blank nor a comment, nor the start of a byte order mark. -/
structure IsField (line : Bytes) : Prop extends Clean line where
  head : ∃ b rest, line = b :: rest ∧ b ≠ colon ∧ b ≠ 0xEF

theorem isField_fieldLine {value : Bytes} (hn : IsName name) (hv : Clean value) :
    IsField (fieldLine name value) := by
  refine ⟨hv.fieldLine hn, ?_⟩
  obtain ⟨b, rest, he, hb⟩ := hn.head
  refine ⟨b, _, by rw [fieldLine, he]; rfl, ?_, hb⟩
  rintro rfl
  exact hn.colon_notMem (by simp [he])

theorem Fields.isField_lines (h : f.Decoded) : ∀ l ∈ f.lines, IsField l := by
  intro l hl
  simp only [Fields.lines, mem_append, Option.mem_toList, Option.map_eq_some_iff,
    mem_map] at hl
  rcases hl with ((⟨v, hv, rfl⟩ | ⟨v, hv, rfl⟩) | ⟨n, -, rfl⟩) | ⟨v, hv, rfl⟩
  · exact isField_fieldLine isName_event (h.event v hv).2
  · exact isField_fieldLine isName_id (h.id v hv).2
  · exact isField_fieldLine isName_retry (clean_formatUint n)
  · exact isField_fieldLine isName_data (h.data v hv)

/-! ## Bytes on the wire -/

def lineBytes (ls : List Bytes) : ℕ := (ls.map fun l => l.length + 1).sum

@[simp] theorem lineBytes_nil : lineBytes [] = 0 := rfl

@[simp] theorem lineBytes_cons (l : Bytes) (ls : List Bytes) :
    lineBytes (l :: ls) = l.length + 1 + lineBytes ls := sum_cons

@[simp] theorem lineBytes_append (ls ls' : List Bytes) :
    lineBytes (ls ++ ls') = lineBytes ls + lineBytes ls' := by
  simp [lineBytes]

theorem length_flatMap_lf (ls : List Bytes) : (ls.flatMap (· ++ [lf])).length = lineBytes ls := by
  simp [lineBytes, length_flatMap]

/-- A frame takes the bytes of its lines and of the blank line. -/
theorem length_encode_frame (h : f.Decoded) : f.frame.encode.length = lineBytes f.lines + 1 := by
  rw [encode_frame h, length_append, length_flatMap_lf, length_singleton]

/-- A line adds no more to what `Encode` writes than it takes on the wire. -/
theorem Fields.lineBytes_read_le (f : Fields) (line : Bytes) :
    lineBytes (f.read line).lines ≤ lineBytes f.lines + (line.length + 1) := by
  have hlen := length_fieldLine_le line
  obtain he | ⟨hn, he⟩ | ⟨hn, -, he⟩ | ⟨-, he⟩ | ⟨hn, -, he⟩ | ⟨n, hn, hne, hd, hp, he⟩ :=
    f.read_cases line <;> rw [he]
  · omega
  · rw [hn] at hlen
    simp only [Fields.lines, lineBytes_append, map_append, map_cons, map_nil,
      lineBytes_cons, lineBytes_nil]
    omega
  · rw [hn] at hlen
    simp only [Fields.lines, lineBytes_append, Option.map_some, Option.toList_some, lineBytes_cons,
      lineBytes_nil]
    omega
  · simp only [Fields.lines, lineBytes_append, Option.map_none, Option.toList_none, lineBytes_nil]
    omega
  · rw [hn] at hlen
    simp only [Fields.lines, lineBytes_append, Option.map_some, Option.toList_some, lineBytes_cons,
      lineBytes_nil]
    omega
  · have hle := length_formatUint_le hne hd hp
    have hspace : (formatUint n).head? ≠ some space := by
      intro hs
      have hall := all_eq_true.mp (all_isDigit_formatUint n) space (mem_of_head? hs)
      exact absurd hall (by decide)
    rw [hn] at hlen
    have hline : (fieldLine (ascii "retry") (formatUint n)).length ≤ line.length :=
      (length_fieldLine_mono hspace hne hle).trans hlen
    simp only [Fields.lines, lineBytes_append, Option.map_some, Option.toList_some, lineBytes_cons,
      lineBytes_nil]
    omega

end Olp.Sse
