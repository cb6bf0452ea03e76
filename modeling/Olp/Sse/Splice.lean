import Olp.Sse.Raw

/-!
# Replacing data in the wire bytes

A raw frame with data is made of whole lines, each data line of which can be told apart in the
wire bytes (`Slot`): any other value can be put in the place of its value, and the lines around it
are still cut off as they were (`Leads`).  Whether the value is then read back depends on what
stands in front of it on the wire (`Holds`).
-/

namespace Olp.Sse

open Olp.Scanner List

/-! ## Lines at the front of a stream -/

def lineContents (stream : Bytes) : List Bytes := (wireLines stream).map WireLine.content

/-- What the lines `ls` at the front of a stream leave to do: `out` are the lines with a given
rest, of which the LF of a CRLF that is still to come does not count.  `after` is the rest that
really follows. -/
structure Leads (out : Bytes → List Bytes) (ls : List Bytes) (st : Splitter) (after : Bytes) :
    Prop where
  ended : ∀ rest, rest.head? ≠ some lf → out rest = ls ++ lineContents rest
  skips : st.skipLF = true → ∀ rest, out (lf :: rest) = ls ++ lineContents rest
  whole : st.skipLF = false → after.head? = some lf → ∀ rest, out rest = ls ++ lineContents rest

variable {t term after : Bytes} {st : Splitter} {ls : List Bytes}

theorem lineContents_lf (hp : Plain t) (rest : Bytes) :
    lineContents (t ++ lf :: rest) = t :: lineContents rest := by
  rw [lineContents, wireLines_append hp (wireLines_lf rest)]
  rfl

theorem lineContents_crlf (hp : Plain t) (rest : Bytes) :
    lineContents (t ++ cr :: lf :: rest) = t :: lineContents rest := by
  rw [lineContents, wireLines_append hp (wireLines_crlf rest)]
  rfl

theorem lineContents_cr (hp : Plain t) {rest : Bytes} (h : rest.head? ≠ some lf) :
    lineContents (t ++ cr :: rest) = t :: lineContents rest := by
  rw [lineContents, wireLines_append hp (wireLines_cr h)]
  rfl

theorem leads_line (hp : Plain t) (he : Ends t st term after) (hterm : term ≠ []) :
    Leads (fun rest => lineContents (t ++ (term ++ rest))) [t] st after := by
  cases he with
  | whole ht hs =>
    have hall : ∀ rest, lineContents (t ++ (term ++ rest)) = [t] ++ lineContents rest := by
      intro rest
      rcases ht with rfl | rfl
      · exact lineContents_lf hp rest
      · exact lineContents_crlf hp rest
    exact ⟨fun rest _ => hall rest, fun h => absurd h (by simp [hs]), fun _ _ => hall⟩
  | cr h =>
    refine ⟨fun rest hr => lineContents_cr hp hr, fun _ rest => lineContents_crlf hp rest, ?_⟩
    intro hs hlf
    rcases h with h | h
    · exact absurd h (by simp [hs])
    · exact absurd hlf h
  | eof => exact absurd rfl hterm

theorem Leads.prepend {out : Bytes → List Bytes} (h : Leads out ls st after) (before : List Bytes) :
    Leads (fun rest => before ++ out rest) (before ++ ls) st after where
  ended rest hr := by rw [h.ended rest hr, append_assoc]
  skips hs rest := by rw [h.skips hs rest, append_assoc]
  whole hs hlf rest := by rw [h.whole hs hlf rest, append_assoc]

theorem lead_of_not_first (hf : st.first = false) (stream : Bytes) :
    lead st stream = if st.skipLF = true ∧ stream.head? = some lf then [lf] else [] := by
  by_cases hs : st.skipLF = true
  · by_cases hl : stream.head? = some lf
    · obtain ⟨r, rfl⟩ := head?_eq_some_iff.mp hl
      simp [lead, skipPending, hs, hf]
    · cases hp : st.provisionalLF <;> simp [lead, skipPending, hs, hf, hl, hp]
  · simp [lead, skipPending, hs, hf]

/-- After the lines, and what is skipped before the next one, any line can follow that starts as
the next one does. -/
theorem Leads.next {out : Bytes → List Bytes} {next : Bytes} (h : Leads out ls st after)
    (hf : st.first = false) (ha : after = lead st after ++ next) {line : Bytes}
    (hl : line.head? = next.head?) : out (lead st after ++ line) = ls ++ lineContents line := by
  rw [lead_of_not_first hf] at ha ⊢
  by_cases hskip : st.skipLF = true ∧ after.head? = some lf
  · rw [if_pos hskip, singleton_append]
    exact h.skips hskip.1 line
  · rw [if_neg hskip, nil_append] at ha ⊢
    by_cases hlf : after.head? = some lf
    · exact h.whole (by simpa [hlf] using hskip) hlf line
    · exact h.ended line (by rw [hl, ← ha]; exact hlf)

/-- The lines of wire bytes, of which a byte order mark is dropped. -/
def wireContents (wire : Bytes) : List Bytes := lineContents (stripBom wire)

theorem wireContents_lead (hinv : st.skipLF = true → st.first = false) (stream : Bytes) :
    ∃ k, ∀ line : Bytes, line.head? ≠ some 0xEF →
      wireContents (lead st stream ++ line) = List.replicate k [] ++ lineContents line := by
  cases hf : st.first with
  | false =>
    rw [lead_of_not_first hf]
    split
    · refine ⟨1, fun line _ => ?_⟩
      exact lineContents_lf (t := []) (by simp [Plain]) line
    · exact ⟨0, fun line hl => by rw [nil_append, wireContents, stripBom_of_head hl]; rfl⟩
  | true =>
    have hs : st.skipLF = false := by
      by_contra h
      simp [hf] at hinv
      exact h hinv
    refine ⟨0, fun line hl => ?_⟩
    by_cases hb : bom <+: stream
    · simp only [lead, skipPending, hs, hf, Bool.false_eq_true, if_false, take_zero,
        nil_append, drop_zero, hb, and_self, if_true]
      rfl
    · simp only [lead, skipPending, hs, hf, Bool.false_eq_true, if_false, take_zero,
        nil_append, drop_zero, hb, and_false]
      rw [wireContents, stripBom_of_head hl]
      rfl

/-! ## Where a line stands -/

variable {i : ℕ}

theorem lastIndex_append {sep s : Bytes} (h : lastIndex sep s = some i) (pre : Bytes) :
    lastIndex sep (pre ++ s) = some (pre.length + i) := by
  induction pre with
  | nil => rw [nil_append, h, length_nil, Nat.zero_add]
  | cons b pre ih => simp only [cons_append, lastIndex, ih, length_cons, Nat.add_right_comm]

variable {v : Bytes}

theorem lastIndex_eq_none {sep : Bytes} (hp : Plain sep) (ht : ∀ b ∈ term, isTerminator b = true)
    (h : v.length < sep.length) : lastIndex sep (v ++ term) = none := by
  have hne : sep ≠ [] := by rintro rfl; simp at h
  -- a terminator within the text
  have hprefix : ∀ u w : Bytes, (∀ b ∈ w, isTerminator b = true) → u.length < sep.length →
      ¬ sep <+: u ++ w := by
    rintro u w hw hlt ⟨z, hz⟩
    have hget : (sep ++ z)[u.length]? = (u ++ w)[u.length]? := by rw [hz]
    rw [getElem?_append_left hlt, getElem?_append_right le_rfl, Nat.sub_self] at hget
    have hsep := hp (sep[u.length]) (getElem_mem hlt)
    rw [getElem?_eq_getElem hlt] at hget
    have hmem := mem_of_getElem? hget.symm
    rw [hw _ hmem] at hsep
    cases hsep
  induction v with
  | nil =>
    rw [nil_append]
    induction term with
    | nil => rw [lastIndex, if_neg hne]
    | cons b term ih =>
      have hlast := ih fun b hb => ht b (mem_cons_of_mem _ hb)
      have hno := hprefix [] (b :: term) ht h
      simp only [lastIndex, hlast]
      exact if_neg hno
  | cons b v ih =>
    have hlast := ih (by simp at h; omega)
    have hno := hprefix (b :: v) term ht h
    simp only [cons_append, lastIndex, hlast]
    exact if_neg hno

theorem lastIndex_line (hp : Plain t) (hne : t ≠ []) (ht : ∀ b ∈ term, isTerminator b = true)
    (pre : Bytes) : lastIndex t (pre ++ (t ++ term)) = some pre.length := by
  refine lastIndex_append (i := 0) ?_ pre
  cases t with
  | nil => exact absurd rfl hne
  | cons b t =>
    have hnone : lastIndex (b :: t) (t ++ term) = none := lastIndex_eq_none hp ht (by simp)
    simp only [cons_append, lastIndex, hnone]
    exact if_pos (prefix_append (b :: t) term)

/-! ## The data of lines -/

/-- The value of a data line. -/
def dataValues (line : Bytes) : List Bytes :=
  if fieldName line = ascii "data" then [fieldValue line] else []

def values (ls : List Bytes) : List Bytes := ls.flatMap dataValues

@[simp] theorem values_nil : values [] = [] := rfl

@[simp] theorem values_append (ls ls' : List Bytes) :
    values (ls ++ ls') = values ls ++ values ls' := flatMap_append

@[simp] theorem values_cons (l : Bytes) (ls : List Bytes) :
    values (l :: ls) = dataValues l ++ values ls := flatMap_cons

variable (f : Fields)

theorem Fields.line_with (data : List Bytes) (l : Bytes) : Fields.line { f with data := data } l =
      { f.line l with data := data ++ dataValues l } := by
  unfold Fields.line
  split
  · next hc =>
      obtain ⟨r, rfl⟩ := head?_eq_some_iff.mp hc
      have hname : fieldName (colon :: r) ≠ ascii "data" := by simp [fieldName, ascii]
      simp [dataValues, hname]
  · unfold Fields.read dataValues
    dsimp only
    split_ifs <;> try simp
    cases parseUint (fieldValue l) <;> simp

theorem Fields.foldl_line_with (ls : List Bytes) (f : Fields) (data : List Bytes) :
    ls.foldl Fields.line { f with data := data } =
      { ls.foldl Fields.line f with data := data ++ values ls } := by
  induction ls generalizing f data with
  | nil => simp
  | cons l ls ih => rw [foldl_cons, f.line_with, ih, foldl_cons, values_cons, append_assoc]

theorem Fields.data_foldl_line (ls : List Bytes) :
    (ls.foldl Fields.line f).data = f.data ++ values ls :=
  congrArg Fields.data (Fields.foldl_line_with ls f f.data)

/-! ## Decoding the bytes of one frame -/

/-- The bytes decode to one frame, whatever the reads are and under every limit they keep. -/
def Decodes (bytes : Bytes) (f : Frame) : Prop :=
  ∀ (reads : List Bytes) (limit : ℤ), reads.flatten = bytes → 1 ≤ limit → bytes.length ≤ limit →
    (newDecoder none reads limit).frames = some ([f], .eof)

theorem fitting_all {maxEventBytes : ℕ} (ls : List WireLine) (size)
    (h : size + wireBytes ls ≤ maxEventBytes) :
    fitting maxEventBytes size ls = (ls.map WireLine.content, none) := by
  induction ls generalizing size with
  | nil => rfl
  | cons l ls ih =>
    rw [wireBytes_cons] at h
    rw [fitting_fits (by omega), ih _ (by split <;> omega)]
    rfl

theorem length_stripBom_le (data : Bytes) : (stripBom data).length ≤ data.length := by
  unfold stripBom
  split
  · rw [length_drop]
    omega
  · exact le_rfl

theorem refusal_none_eq (line : Bytes) :
    refusal none line = if validString line then none else some .invalidUtf8 := by
  unfold refusal
  cases validString line <;> simp

theorem terminal_none_iff (ls : List Bytes) :
    terminal none none ls = .eof ↔ ∀ l ∈ ls, validString l = true := by
  induction ls with
  | nil => simp [terminal]
  | cons l ls ih =>
    rw [terminal, refusal_none_eq, forall_mem_cons, ← ih]
    cases validString l <;> simp

theorem frames_of_limit {reads : List Bytes} {limit : ℤ} (hpos : 1 ≤ limit)
    (h : reads.flatten.length ≤ limit) :
    (newDecoder none reads limit).frames =
      some (framesOf none .empty (wireContents reads.flatten),
        terminal none none (wireContents reads.flatten)) := by
  have hlen := length_stripBom_le reads.flatten
  have hfit : fitting limit.toNat 0 (wireLines (stripBom reads.flatten)) =
      (wireContents reads.flatten, none) :=
    fitting_all _ 0 (by rw [wireBytes_wireLines]; omega)
  rw [newDecoder, if_neg (by omega), scanLines_eq, hfit, Decoder.frames_eq _ rfl]
  rfl

variable {bytes : Bytes}

theorem decodes_iff {f : Frame} :
    Decodes bytes f ↔ framesOf none .empty (wireContents bytes) = [f] ∧
      ∀ l ∈ wireContents bytes, validString l = true := by
  rw [← terminal_none_iff]
  constructor
  · intro h
    have hd := h [bytes] (bytes.length + 1) (by simp) (by omega) (by omega)
    rw [frames_of_limit (by omega) (by simp), flatten_singleton] at hd
    simpa using hd
  · rintro ⟨hf, ht⟩ reads limit rfl hpos hl
    rw [frames_of_limit hpos hl, hf, ht]

theorem framesOf_replicate (k : ℕ) (ls : List Bytes) :
    framesOf none .empty (List.replicate k [] ++ ls) = framesOf none .empty ls := by
  induction k with
  | zero => rfl
  | succ k ih =>
    rw [replicate_succ, cons_append, framesOf, ih]
    simp [refusal_none_eq, validString, Fields.dispatches, Fields.empty]

theorem framesOf_lines (hne : ∀ l ∈ ls, l ≠ []) (hv : ∀ l ∈ ls, validString l = true) (f : Fields) :
    framesOf none f (ls ++ [[]]) =
      if (ls.foldl Fields.line f).dispatches then [(ls.foldl Fields.line f).frame] else [] := by
  induction ls generalizing f with
  | nil => cases hd : f.dispatches <;> simp [framesOf, refusal_none_eq, validString, hd]
  | cons l ls ih =>
    obtain ⟨hl, hne⟩ := forall_mem_cons.mp hne
    obtain ⟨hvl, hv⟩ := forall_mem_cons.mp hv
    rw [cons_append, framesOf, refusal_none_eq, hvl, if_neg hl, foldl_cons, ← ih hne hv]
    rfl

/-! ## Replacing a value -/

/-- The part of a data line in front of its value. -/
inductive Stem : Bytes → Prop
  | bare : Stem (ascii "data")
  | colon : Stem (ascii "data:")
  | space : Stem (ascii "data: ")

variable {stem : Bytes}

theorem Stem.plain (h : Stem stem) : Plain stem := by
  cases h <;> exact plain_of_all rfl

theorem Stem.ascii (h : Stem stem) : ∀ b ∈ stem, b < 0x80 := by
  cases h <;> exact ascii_of_all rfl

theorem exists_stem {line : Bytes} (h : fieldName line = Sse.ascii "data") :
    ∃ stem, Stem stem ∧ line = stem ++ fieldValue line := by
  rcases line_cases line with ⟨hl, hv⟩ | ⟨-, hl⟩ | hl <;> rw [h] at hl
  · exact ⟨_, .bare, by rw [hv, append_nil]; exact hl⟩
  · exact ⟨_, .colon, hl⟩
  · exact ⟨_, .space, hl⟩

/-- A value that is read back from behind a stem: without a colon there is no room for one, and
one space behind the colon is not part of it. -/
def Holds (last : Option UInt8) (value : Bytes) : Prop :=
  value = [] ∨ last = some space ∨ last = some colon ∧ value.head? ≠ some space

variable (value : Bytes)

theorem dataValues_bare :
    dataValues (ascii "data" ++ value) =
      if value.takeWhile (· != colon) = [] then [fieldValue value] else [] := by
  have hall : ∀ b ∈ ascii "data", (b != colon) = true := all_eq_true.mp rfl
  have hname : fieldName (ascii "data" ++ value) =
      ascii "data" ++ value.takeWhile (· != colon) := takeWhile_append_of_pos hall
  have hvalue : fieldValue (ascii "data" ++ value) = fieldValue value := by
    rfl
  simp only [dataValues, hname, hvalue, append_right_eq_self]

theorem dataValues_colon :
    dataValues (ascii "data:" ++ value) =
      [if value.head? = some space then value.drop 1 else value] := rfl

theorem dataValues_space : dataValues (ascii "data: " ++ value) = [value] := rfl

theorem length_fieldValue_lt (hv : v ≠ []) : (fieldValue v).length < v.length := by
  have hle := (dropWhile_suffix (fun b => b != colon) : v.dropWhile _ <:+ v).length_le
  have hpos := length_pos_iff.mpr hv
  unfold fieldValue
  dsimp only
  split <;> simp only [length_drop] <;> omega

theorem dataValues_of_holds {value : Bytes} (hs : Stem stem) (h : Holds stem.getLast? value) :
    dataValues (stem ++ value) = [value] := by
  cases hs with
  | bare =>
    obtain rfl : value = [] := by
      rcases h with h | h | ⟨h, -⟩
      · exact h
      · exact absurd h (by decide)
      · exact absurd h (by decide)
    decide
  | colon =>
    rw [dataValues_colon]
    rcases h with rfl | h | ⟨-, h⟩
    · rfl
    · exact absurd h (by decide)
    · rw [if_neg h]
  | space => exact dataValues_space value

theorem dataValues_of_not_holds {value : Bytes} (hs : Stem stem) (h : ¬ Holds stem.getLast? value) :
    dataValues (stem ++ value) = [] ∨
      ∃ v, dataValues (stem ++ value) = [v] ∧ v.length < value.length := by
  have hne : value ≠ [] := fun hv => h (.inl hv)
  cases hs with
  | bare =>
    rw [dataValues_bare]
    split
    · exact .inr ⟨_, rfl, length_fieldValue_lt hne⟩
    · exact .inl rfl
  | colon =>
    have hsp : value.head? = some space := by
      by_contra hsp
      exact h (.inr (.inr ⟨rfl, hsp⟩))
    rw [dataValues_colon, if_pos hsp]
    refine .inr ⟨_, rfl, ?_⟩
    have := length_pos_iff.mpr hne
    rw [length_drop]
    omega
  | space => exact absurd (.inr (.inl rfl)) h

/-! ## Joined values -/

def joined (vs : List Bytes) : Bytes := List.intercalate [lf] vs

def front (vs : List Bytes) : Bytes := vs.flatMap (· ++ [lf])

def back (vs : List Bytes) : Bytes := vs.flatMap (lf :: ·)

@[simp] theorem front_nil : front [] = [] := rfl

variable (vs : List Bytes)

@[simp] theorem front_cons (v : Bytes) (vs : List Bytes) :
    front (v :: vs) = v ++ lf :: front vs := by
  simp [front]

@[simp] theorem front_append (ws : List Bytes) : front (vs ++ ws) = front vs ++ front ws :=
  flatMap_append

@[simp] theorem back_nil : back [] = [] := rfl

@[simp] theorem back_cons (v : Bytes) (vs : List Bytes) : back (v :: vs) = lf :: (v ++ back vs) :=
  rfl

theorem joined_cons (v : Bytes) (vs : List Bytes) : joined (v :: vs) = v ++ back vs := by
  induction vs generalizing v with
  | nil => simp [joined, List.intercalate]
  | cons w vs ih =>
    have h : joined (v :: w :: vs) = v ++ lf :: joined (w :: vs) := by
      simp [joined, List.intercalate]
    rw [h, ih, back_cons]

theorem joined_split (a : List Bytes) (v : Bytes) (b : List Bytes) :
    joined (a ++ v :: b) = front a ++ (v ++ back b) := by
  induction a with
  | nil => exact joined_cons v b
  | cons w a ih =>
    have h : joined (w :: (a ++ v :: b)) = w ++ lf :: joined (a ++ v :: b) := by
      cases a <;> simp [joined, List.intercalate]
    rw [cons_append, h, ih, front_cons, append_assoc, cons_append]

theorem length_joined_lt (a b : List Bytes) (hv : v ≠ []) :
    (joined (a ++ b)).length < (joined (a ++ v :: b)).length := by
  have hpos := length_pos_iff.mpr hv
  rw [joined_split]
  cases b with
  | cons w b =>
    rw [joined_split]
    simp only [length_append, back_cons, length_cons]
    omega
  | nil =>
    rcases eq_nil_or_concat a with rfl | ⟨a, w, rfl⟩
    · simp only [joined, List.intercalate, append_nil, length_append, back_nil]
      simp
      omega
    · rw [append_nil, concat_eq_append, joined_split]
      simp only [front_append, front_cons, front_nil, back_nil, length_append,
        length_cons, length_nil]
      omega

/-! ## Lines within the wire bytes -/

/-- The line of a range: `stem` and its value stand at one place of the wire bytes, and any other
value may stand there. -/
def Slot (wire : Bytes) (ls : List Bytes) (st : Splitter) (after : Bytes) (r : DataRange) : Prop :=
  ∃ A stem v B a b k, Stem stem ∧ wire = A ++ (stem ++ (v ++ B)) ∧ ls = a ++ (stem ++ v) :: b ∧
    dataValues (stem ++ v) = [v] ∧ Plain v ∧
    r = ⟨(front (values a)).length, (front (values a)).length + v.length,
      A.length + stem.length⟩ ∧
    ∀ v', Plain v' → Leads (fun rest => wireContents (A ++ (stem ++ (v' ++ (B ++ rest)))))
      (List.replicate k [] ++ (a ++ (stem ++ v') :: b)) st after

section Step

variable {st' : Splitter} {wire stream c : Bytes}

/-- The bytes `c` in front of `after` are those of the line `t`, with its terminator. -/
structure Cuts (st : Splitter) (stream c t term : Bytes) (st' : Splitter) (after : Bytes) :
    Prop where
  bytes : c = lead st stream ++ (t ++ term)
  stream : stream = c ++ after
  plain : Plain t
  ends : Ends t st' term after

theorem Cuts.next (h : Cuts st stream c t term st' after) :
    stream = lead st stream ++ (t ++ (term ++ after)) := by
  nth_rewrite 1 [h.stream, h.bytes]
  simp only [append_assoc]

theorem Leads.step {out : Bytes → List Bytes} (h : Leads out ls st stream) (hf : st.first = false)
    (hc : Cuts st stream c t term st' after) (hterm : term ≠ []) :
    Leads (fun rest => out (c ++ rest)) (ls ++ [t]) st' after := by
  have hout : (fun rest => out (c ++ rest)) =
      fun rest => ls ++ lineContents (t ++ (term ++ rest)) := by
    funext rest
    have hhead : (t ++ (term ++ rest)).head? = (t ++ (term ++ after)).head? := by
      cases t with
      | cons b t => rfl
      | nil =>
        cases term with
        | nil => exact absurd rfl hterm
        | cons b term => rfl
    rw [hc.bytes, append_assoc, append_assoc, h.next hf hc.next hhead]
  rw [hout]
  exact (leads_line hc.plain hc.ends hterm).prepend ls

theorem Slot.step {r : DataRange} (h : Slot wire ls st stream r) (hf : st.first = false)
    (hc : Cuts st stream c t term st' after) (hterm : term ≠ []) :
    Slot (wire ++ c) (ls ++ [t]) st' after r := by
  obtain ⟨A, stem, v, B, a, b, k, hstem, rfl, rfl, hv, hpv, hr, hl⟩ := h
  refine ⟨A, stem, v, B ++ c, a, b ++ [t], k, hstem, ?_, ?_, hv, hpv, hr, ?_⟩
  · simp only [append_assoc]
  · simp only [append_assoc, cons_append]
  · intro v' hv'
    simpa only [append_assoc, cons_append] using (hl v' hv').step hf hc hterm

/-- Bytes of the wire behind which a data line comes next. -/
def Awaits (wire : Bytes) (ls : List Bytes) (k : ℕ) : Prop :=
  ∀ line : Bytes, line.head? = some 100 →
    wireContents (wire ++ line) = List.replicate k [] ++ (ls ++ lineContents line)

variable {k : ℕ}

theorem Leads.awaits {next : Bytes}
    (h : Leads (fun rest => wireContents (wire ++ rest)) (List.replicate k [] ++ ls) st stream)
    (hf : st.first = false) (hs : stream = lead st stream ++ next) (hn : next.head? = some 100) :
    Awaits (wire ++ lead st stream) ls k := by
  intro line hl
  rw [append_assoc, ← append_assoc (List.replicate k [])]
  exact h.next hf hs (hl.trans hn.symm)

theorem awaits_start (hinv : st.skipLF = true → st.first = false) :
    ∃ k, Awaits ([] ++ lead st stream) [] k := by
  obtain ⟨k, hk⟩ := wireContents_lead hinv stream
  exact ⟨k, fun line hl => hk line (by rw [hl]; decide)⟩

theorem Ends.of_ne (h : Ends t st term after) (hterm : term ≠ []) (t' : Bytes) :
    Ends t' st term after := by
  cases h with
  | whole ht hs => exact .whole ht hs
  | cr h => exact .cr h
  | eof => exact absurd rfl hterm

theorem Stem.head {stem : Bytes} (h : Stem stem) (rest : Bytes) :
    (stem ++ rest).head? = some 100 := by
  cases h <;> rfl

theorem Awaits.leads (h : Awaits wire ls k) (hstem : Stem stem) (hv : Plain v)
    (he : Ends t st term after) (hterm : term ≠ []) :
    Leads (fun rest => wireContents (wire ++ (stem ++ (v ++ (term ++ rest)))))
      (List.replicate k [] ++ (ls ++ [stem ++ v])) st after := by
  have hp : Plain (stem ++ v) := by
    intro b hb
    exact (mem_append.mp hb).elim (hstem.plain b) (hv b)
  have hout : (fun rest => wireContents (wire ++ (stem ++ (v ++ (term ++ rest))))) =
      fun rest => (List.replicate k [] ++ ls) ++ lineContents ((stem ++ v) ++ (term ++ rest)) := by
    funext rest
    rw [h _ (hstem.head _), append_assoc, append_assoc]
  rw [hout, ← append_assoc]
  exact (leads_line hp (he.of_ne hterm _) hterm).prepend _

theorem Awaits.slot (h : Awaits wire ls k) (hstem : Stem stem) (hd : dataValues (stem ++ v) = [v])
    (hv : Plain v) (he : Ends t st term after) (hterm : term ≠ []) :
    Slot (wire ++ (stem ++ (v ++ term))) (ls ++ [stem ++ v]) st after
      ⟨(front (values ls)).length, (front (values ls)).length + v.length,
        wire.length + stem.length⟩ :=
  ⟨wire, stem, v, term, ls, [], k, hstem, rfl, rfl, hd, hv, rfl,
    fun _ hv' => h.leads hstem hv' he hterm⟩

end Step

/-! ## Replacing data -/

/-- The content of the line of `part` when a range of the data is replaced. -/
def RawFrame.contentAfter (frame : RawFrame) (part : DataRange) (start stop : ℤ)
    (replacement : Bytes) : Bytes :=
  (frame.data.take start.toNat).drop part.start ++ replacement ++
    (frame.data.take part.stop).drop stop.toNat

/-- The data with a range replaced. -/
def splice (data : Bytes) (start stop : ℤ) (replacement : Bytes) : Bytes :=
  data.take start.toNat ++ replacement ++ data.drop stop.toNat

/-- The range that a replacement falls in. -/
def RawFrame.part? (frame : RawFrame) (start stop : ℤ) : Option DataRange :=
  frame.ranges.find? fun part => part.start ≤ start ∧ stop ≤ part.stop

/-- A frame as the raw decoder makes it of the lines `ls` of an event. -/
structure RawFrame.Made (frame : RawFrame) (ls : List Bytes) : Prop where
  valid : ∀ l ∈ ls, l ≠ [] ∧ validString l = true
  data : frame.data = joined (values ls)
  some_value : values ls ≠ []
  contents : ∃ k, wireContents frame.bytes = List.replicate k [] ++ (ls ++ [[]])
  slots : ∃ st after, ∀ r ∈ frame.ranges, Slot frame.bytes (ls ++ [[]]) st after r
  covers : ∀ a v b, values ls = a ++ v :: b → ∃ r ∈ frame.ranges,
    r.start = (front a).length ∧ r.stop = (front a).length + v.length

def lineFrame (ls : List Bytes) : Frame := (ls.foldl Fields.line Fields.empty).frame

theorem lineFrame_data (ls : List Bytes) : (lineFrame ls).data = joined (values ls) := by
  rw [lineFrame, Fields.frame, Fields.data_foldl_line]
  rfl

theorem dispatches_of_values (h : values ls ≠ []) :
    (ls.foldl Fields.line Fields.empty).dispatches = true := by
  have hd : (ls.foldl Fields.line Fields.empty).data = values ls := Fields.data_foldl_line _ _
  simp [Fields.dispatches, hd, h]

theorem lineFrame_control (h : values ls ≠ []) : (lineFrame ls).control = false := by
  have hd : (ls.foldl Fields.line Fields.empty).data = values ls := Fields.data_foldl_line _ _
  simp [lineFrame, Fields.frame, hd, h]

/-- Lines of data end as one event with the joined values. -/
theorem decodes_lines {k : ℕ} (hc : wireContents bytes = List.replicate k [] ++ (ls ++ [[]]))
    (hv : ∀ l ∈ ls, l ≠ [] ∧ validString l = true) (hne : values ls ≠ []) :
    Decodes bytes (lineFrame ls) := by
  rw [decodes_iff, hc, framesOf_replicate,
    framesOf_lines (fun l hl => (hv l hl).1) (fun l hl => (hv l hl).2),
    if_pos (dispatches_of_values hne)]
  refine ⟨rfl, ?_⟩
  intro l hl
  rcases mem_append.mp hl with hl | hl
  · rw [eq_of_mem_replicate hl]
    rfl
  · rcases mem_append.mp hl with hl | hl
    · exact (hv l hl).2
    · rw [mem_singleton.mp hl]
      rfl

theorem Fields.line_of_dataValues {l : Bytes} (h : dataValues l = [v]) (f : Fields) :
    f.line l = { f with data := f.data ++ [v] } := by
  unfold dataValues at h
  split at h
  · next hn =>
      have hc : l.head? ≠ some colon := by
        intro hc
        obtain ⟨r, rfl⟩ := head?_eq_some_iff.mp hc
        exact absurd hn (by simp [fieldName, ascii])
      cases h
      rw [Fields.line, if_neg hc, Fields.read]
      exact if_pos hn
  · cases h

theorem lineFrame_replace {a b : List Bytes} {l l' v' : Bytes} (hl : dataValues l = [v])
    (hl' : dataValues l' = [v']) :
    lineFrame (a ++ l' :: b) =
      { lineFrame (a ++ l :: b) with data := joined (values a ++ v' :: values b) } := by
  have hfold : ∀ {l v}, dataValues l = [v] →
      (a ++ l :: b).foldl Fields.line Fields.empty =
        { b.foldl Fields.line (a.foldl Fields.line Fields.empty) with
          data := values a ++ v :: values b } := by
    intro l v h
    have hd : (a.foldl Fields.line Fields.empty).data = values a := Fields.data_foldl_line _ _
    rw [foldl_append, foldl_cons, Fields.line_of_dataValues h, Fields.foldl_line_with, hd,
      append_assoc, singleton_append]
  have hne : ∀ w, (values a ++ w :: values b).isEmpty = false := by
    intro w
    simp
  simp [lineFrame, hfold hl, hfold hl', Fields.frame, joined, hne]

/-- Bytes that hold a line in which another value was put: they decode to the frame with that
value exactly when it is valid and read back from behind the stem. -/
theorem decodes_replace_iff {v' : Bytes} {a b : List Bytes} {k : ℕ} (hs : Stem stem)
    (hv : dataValues (stem ++ v) = [v])
    (hvalid : ∀ l ∈ a ++ (stem ++ v) :: b, l ≠ [] ∧ validString l = true)
    (hc : wireContents bytes = List.replicate k [] ++ ((a ++ (stem ++ v') :: b) ++ [[]])) :
    Decodes bytes { lineFrame (a ++ (stem ++ v) :: b) with
        data := joined (values a ++ v' :: values b) } ↔
      validString v' = true ∧ Holds stem.getLast? v' := by
  have hstem : validString (stem ++ v') = validString v' := validString_ascii_append hs.ascii v'
  have hne : stem ++ v' ≠ [] := by
    intro h
    have := hs.head v'
    rw [h] at this
    cases this
  have hlines : validString v' = true → ∀ l ∈ a ++ (stem ++ v') :: b,
      l ≠ [] ∧ validString l = true := by
    intro hv' l hl
    rcases mem_append.mp hl with hl | hl
    · exact hvalid l (mem_append_left _ hl)
    · rcases mem_cons.mp hl with rfl | hl
      · exact ⟨hne, hstem.trans hv'⟩
      · exact hvalid l (mem_append_right _ (mem_cons_of_mem _ hl))
  constructor
  · intro h
    obtain ⟨hf, hall⟩ := decodes_iff.mp h
    have hv' : validString v' = true := by
      rw [← hstem]
      exact hall _ (by rw [hc]; simp)
    refine ⟨hv', ?_⟩
    by_contra hno
    -- a shorter value would be read, and the data would be shorter
    have hlt : (joined (values (a ++ (stem ++ v') :: b))).length <
        (joined (values a ++ v' :: values b)).length := by
      rw [values_append, values_cons]
      rcases dataValues_of_not_holds hs hno with he | ⟨w, he, hw⟩
      · rw [he, nil_append]
        exact length_joined_lt _ _ fun hnil => hno (.inl hnil)
      · rw [he, singleton_append, joined_split, joined_split]
        simp only [length_append]
        omega
    rw [hc, framesOf_replicate, framesOf_lines (fun l hl => (hlines hv' l hl).1)
      (fun l hl => (hlines hv' l hl).2)] at hf
    split at hf
    · have hdata := congrArg Frame.data (singleton_inj.mp hf)
      rw [← lineFrame, lineFrame_data] at hdata
      rw [hdata] at hlt
      exact absurd hlt (lt_irrefl _)
    · cases hf
  · rintro ⟨hv', hh⟩
    rw [← lineFrame_replace hv (dataValues_of_holds hs hh)]
    refine decodes_lines hc (hlines hv') ?_
    rw [values_append, values_cons, dataValues_of_holds hs hh]
    simp

theorem take_within (P Q : Bytes) (hi : i ≤ v.length) :
    (P ++ (v ++ Q)).take (P.length + i) = P ++ v.take i := by
  rw [take_length_add_append, take_append_of_le_length hi]

theorem drop_within (P Q : Bytes) (hi : i ≤ v.length) :
    (P ++ (v ++ Q)).drop (P.length + i) = v.drop i ++ Q := by
  rw [drop_length_add_append, drop_append_of_le_length hi]

variable {frame : RawFrame}

theorem RawFrame.Made.slot (h : frame.Made ls) {part : DataRange} (hpart : part ∈ frame.ranges) :
    ∃ A stem v B a b k, Stem stem ∧ frame.bytes = A ++ (stem ++ (v ++ B)) ∧
      ls = a ++ (stem ++ v) :: b ∧ dataValues (stem ++ v) = [v] ∧ Plain v ∧
      frame.data = front (values a) ++ (v ++ back (values b)) ∧
      part = ⟨(front (values a)).length, (front (values a)).length + v.length,
        A.length + stem.length⟩ ∧
      ∀ v', Plain v' → wireContents (A ++ (stem ++ (v' ++ B))) =
        List.replicate k [] ++ ((a ++ (stem ++ v') :: b) ++ [[]]) := by
  obtain ⟨st, after, hslots⟩ := h.slots
  obtain ⟨A, stem, v, B, a, b, k, hstem, hwire, hls, hdv, hpv, hr, hleads⟩ := hslots part hpart
  -- the line is not the blank one at the end
  obtain ⟨b, rfl, rfl⟩ : ∃ b', b = b' ++ [[]] ∧ ls = a ++ (stem ++ v) :: b' := by
    rcases eq_nil_or_concat b with rfl | ⟨b', w, rfl⟩
    · have hlast := (append_inj' hls rfl).2
      have hhead := hstem.head v
      rw [← singleton_inj.mp hlast] at hhead
      cases hhead
    · rw [concat_eq_append, ← cons_append, ← append_assoc] at hls
      obtain ⟨hls, hw⟩ := append_inj' hls rfl
      rw [concat_eq_append, ← hw]
      exact ⟨b', rfl, hls⟩
  refine ⟨A, stem, v, B, a, b, k, hstem, hwire, rfl, hdv, hpv, ?_, hr, ?_⟩
  · rw [h.data, values_append, values_cons, hdv, singleton_append, joined_split]
  · intro v' hv'
    have hended := (hleads v' hv').ended [] (by simp)
    simpa [lineContents, wireLines] using hended

/-- A replacement decodes to the spliced data exactly when the line it makes is valid and still a
data line that holds its content. -/
theorem RawFrame.Made.replaceData_iff (h : frame.Made ls) {start stop : ℤ} {replacement : Bytes}
    (hp : Plain replacement) (hr : frame.replaceData start stop replacement = .ok bytes) :
    ∃ part, frame.part? start stop = some part ∧
      (Decodes bytes { lineFrame ls with data := splice frame.data start stop replacement } ↔
        validString (frame.contentAfter part start stop replacement) = true ∧
          Holds (frame.bytes.take part.wireStart).getLast?
            (frame.contentAfter part start stop replacement)) := by
  unfold RawFrame.replaceData at hr
  cases hpart : frame.ranges.find? fun part => part.start ≤ start ∧ stop ≤ part.stop with
  | none => rw [hpart] at hr; cases hr
  | some part =>
    rw [hpart] at hr
    dsimp only at hr
    split at hr
    · cases hr
    · next hle =>
        refine ⟨part, hpart, ?_⟩
        have hcond := find?_some hpart
        simp only [decide_eq_true_eq] at hcond
        obtain ⟨A, stem, v, B, a, b, k, hstem, hwire, rfl, hdv, hpv, hdata, rfl, hcontents⟩ :=
          h.slot (mem_of_find?_eq_some hpart)
        dsimp only at hr hcond ⊢
        -- the range, relative to the value of the line
        obtain ⟨i, rfl⟩ : ∃ i : ℕ, start = ((front (values a)).length + i : ℕ) :=
          ⟨(start - (front (values a)).length).toNat, by omega⟩
        obtain ⟨j, rfl⟩ : ∃ j : ℕ, stop = ((front (values a)).length + j : ℕ) :=
          ⟨(stop - (front (values a)).length).toNat, by omega⟩
        have hj : j ≤ v.length := by omega
        have hi : i ≤ v.length := by omega
        have hcontent : frame.contentAfter ⟨(front (values a)).length,
            (front (values a)).length + v.length, A.length + stem.length⟩
            ((front (values a)).length + i : ℕ) ((front (values a)).length + j : ℕ) replacement =
            v.take i ++ replacement ++ v.drop j := by
          simp only [RawFrame.contentAfter, Int.toNat_natCast, hdata, take_within _ _ hi,
            take_within _ _ le_rfl, take_length, drop_left]
          rw [drop_length_add_append]
        have hsplice : splice frame.data ((front (values a)).length + i : ℕ)
            ((front (values a)).length + j : ℕ) replacement =
            joined (values a ++ (v.take i ++ replacement ++ v.drop j) :: values b) := by
          simp only [splice, Int.toNat_natCast, hdata, take_within _ _ hi, drop_within _ _ hj,
            joined_split, append_assoc]
        have hlast : (frame.bytes.take (A.length + stem.length)).getLast? = stem.getLast? := by
          rw [hwire, take_within _ _ le_rfl, take_length]
          cases hstem <;> simp [ascii]
        have hbytes : bytes = A ++ (stem ++ ((v.take i ++ replacement ++ v.drop j) ++ B)) := by
          have hat : ∀ n : ℕ, (((A.length + stem.length : ℕ) : ℤ) +
              ((front (values a)).length + n : ℕ) - (front (values a)).length).toNat =
              (A ++ stem).length + n := by
            intro n
            rw [length_append]
            omega
          rw [hat, hat, hwire, ← append_assoc, take_within _ _ hi, drop_within _ _ hj] at hr
          cases hr
          simp only [append_assoc]
        have hplain : Plain (v.take i ++ replacement ++ v.drop j) := by
          intro x hx
          rcases mem_append.mp hx with hx | hx
          · rcases mem_append.mp hx with hx | hx
            · exact hpv x (mem_of_mem_take hx)
            · exact hp x hx
          · exact hpv x (mem_of_mem_drop hx)
        rw [hcontent, hsplice, hlast]
        have hc := hcontents _ hplain
        rw [← hbytes] at hc
        exact decodes_replace_iff hstem hdv h.valid hc

/-- A range of the joined values without a line break lies within one of them. -/
theorem exists_value_of_range (hne : vs ≠ []) : ∀ start stop : ℕ, start ≤ stop →
    stop ≤ (joined vs).length → lf ∉ ((joined vs).take stop).drop start →
    ∃ a v b, vs = a ++ v :: b ∧ (front a).length ≤ start ∧ stop ≤ (front a).length + v.length := by
  induction vs with
  | nil => exact absurd rfl hne
  | cons v vs ih =>
    intro start stop hle hstop hlf
    rcases Nat.lt_or_ge v.length stop with hlt | hge
    · -- the range goes beyond the first value, and its line break
      cases vs with
      | nil =>
        rw [joined_cons, back_nil, append_nil] at hstop
        omega
      | cons w vs =>
        have hj : joined (v :: w :: vs) = v ++ lf :: joined (w :: vs) := by
          rw [joined_cons, back_cons, joined_cons]
        rw [hj, length_append, length_cons] at hstop
        have hstart : v.length < start := by
          by_contra hs
          apply hlf
          rw [hj, mem_iff_getElem?]
          refine ⟨v.length - start, ?_⟩
          rw [getElem?_drop, getElem?_take_of_lt (by omega), getElem?_append_right (by omega)]
          simp [show start + (v.length - start) - v.length = 0 by omega]
        have hcut : ((joined (v :: w :: vs)).take stop).drop start =
            ((joined (w :: vs)).take (stop - (v.length + 1))).drop (start - (v.length + 1)) := by
          have hsplit : v ++ lf :: joined (w :: vs) = (v ++ [lf]) ++ joined (w :: vs) := by simp
          have hlen : (v ++ [lf]).length = v.length + 1 := by simp
          rw [hj, hsplit, take_append, hlen,
            take_of_length_le (by rw [hlen]; omega), drop_append, hlen,
            drop_eq_nil_of_le (by rw [hlen]; omega), nil_append]
        rw [hcut] at hlf
        obtain ⟨a, u, b, hab, h₁, h₂⟩ := ih (by simp) (start - (v.length + 1))
          (stop - (v.length + 1)) (by omega) (by omega) hlf
        refine ⟨v :: a, u, b, by rw [hab, cons_append], ?_, ?_⟩
        all_goals
          rw [front_cons, length_append, length_cons]
          omega
    · exact ⟨[], v, vs, rfl, Nat.zero_le _, by rw [front_nil, length_nil]; omega⟩

/-- `ReplaceData` refuses exactly the ranges that are not within one line of the data. -/
theorem RawFrame.Made.replaceData_ok_iff (h : frame.Made ls) (start stop : ℤ)
    (replacement : Bytes) :
    (∃ bytes, frame.replaceData start stop replacement = .ok bytes) ↔
      0 ≤ start ∧ start ≤ stop ∧ stop ≤ frame.data.length ∧
        lf ∉ (frame.data.take stop.toNat).drop start.toNat := by
  constructor
  · rintro ⟨bytes, hr⟩
    unfold RawFrame.replaceData at hr
    cases hpart : frame.ranges.find? fun part => part.start ≤ start ∧ stop ≤ part.stop with
    | none => rw [hpart] at hr; cases hr
    | some part =>
      rw [hpart] at hr
      dsimp only at hr
      split at hr
      · cases hr
      · next hle =>
          have hcond := find?_some hpart
          simp only [decide_eq_true_eq] at hcond
          obtain ⟨A, stem, v, B, a, b, k, -, -, -, -, hpv, hdata, rfl, -⟩ :=
            h.slot (mem_of_find?_eq_some hpart)
          dsimp only at hcond
          have hlen := congrArg List.length hdata
          simp only [length_append] at hlen
          refine ⟨by omega, by omega, by omega, ?_⟩
          intro hmem
          -- the range lies within the value, which is plain
          obtain ⟨i, hi⟩ : ∃ i, start.toNat = (front (values a)).length + i :=
            ⟨start.toNat - (front (values a)).length, by omega⟩
          obtain ⟨j, hj⟩ : ∃ j, stop.toNat = (front (values a)).length + j :=
            ⟨stop.toNat - (front (values a)).length, by omega⟩
          rw [hdata, hi, hj, take_within _ _ (by omega), drop_length_add_append] at hmem
          exact absurd (hpv lf (mem_of_mem_take (mem_of_mem_drop hmem))) (by decide)
  · rintro ⟨h0, hle, hstop, hlf⟩
    obtain ⟨a, v, b, hab, h₁, h₂⟩ := exists_value_of_range (values ls) h.some_value start.toNat
      stop.toNat (by omega) (by rw [← h.data]; omega) (by rw [← h.data]; exact hlf)
    obtain ⟨r, hr, hs, he⟩ := h.covers a v b hab
    have hsome : (frame.ranges.find? fun part => part.start ≤ start ∧ stop ≤ part.stop).isSome := by
      rw [find?_isSome]
      exact ⟨r, hr, by simp only [decide_eq_true_eq]; omega⟩
    obtain ⟨part, hpart⟩ := Option.isSome_iff_exists.mp hsome
    unfold RawFrame.replaceData
    rw [hpart]
    dsimp only
    rw [if_neg (by omega)]
    exact ⟨_, rfl⟩

end Olp.Sse
