import Olp.Scanner
import Mathlib.Algebra.Order.Group.Nat
import Mathlib.Algebra.GroupWithZero.Nat

/-!
# Cutting an event stream into lines

The splitter of the SSE decoder cuts the wire at CR, LF and CRLF, strips a leading byte order mark
and counts the bytes of the event it is in.  It is called on whatever is buffered: at a CR that
ends the buffer it cannot know whether an LF follows, and it hands the line out with the LF
counted provisionally unless that LF would be the byte that breaks the limit.

`wholeLines` is what the splitter is for: the lines of the whole stream, up to the first one that
takes its event over the limit.  `lines_coherent` shows that every answer of the splitter agrees
with it.
-/

namespace Olp.Sse

open Olp.Scanner List

abbrev Bytes := List UInt8

def lf : UInt8 := 10

def cr : UInt8 := 13

def bom : Bytes := [0xEF, 0xBB, 0xBF]

/-- The errors a decoder ends with; `commentRefused` carries what the comment callback
returned. -/
inductive DecodeError
  | eof
  | limitNotPositive
  | eventTooLarge
  | invalidUtf8
  | commentRefused (detail : String)
  deriving DecidableEq, Repr

/-- The variables the splitter keeps between two calls. -/
structure Splitter where
  size : ℕ
  first : Bool
  skipLF : Bool
  provisionalLF : Bool
  deriving DecidableEq, Repr

def Splitter.start : Splitter := ⟨0, true, false, false⟩

def isTerminator (b : UInt8) : Bool := b == cr || b == lf

/-! ## The splitter -/

/-- The first part of a call: an LF that completes the CRLF of a line already handed out is
skipped, and a provisional LF that did not come is uncounted. -/
def skipPending (st : Splitter) (data : Bytes) : ℕ × Splitter :=
  if st.skipLF then
    if data.head? = some lf then (1, { st with skipLF := false, provisionalLF := false })
    else if st.provisionalLF then
      (0, { st with size := st.size - 1, skipLF := false, provisionalLF := false })
    else (0, { st with skipLF := false, provisionalLF := false })
  else (0, st)

/-- The last part of a call: cut a line off `data`, of which `advance` more bytes were consumed
before. -/
def cutLine (maxEventBytes advance : ℕ) (st : Splitter) (data : Bytes) (eof : Bool) :
    Cut Splitter Bytes DecodeError :=
  match data.findIdx? isTerminator with
  | some i =>
    let trailingCR := data[i]? = some cr ∧ i + 1 = data.length ∧ eof = false
    let n := if data[i]? = some cr ∧ data[i + 1]? = some lf then i + 2 else i + 1
    if n > maxEventBytes - st.size then .fail .eventTooLarge
    else if trailingCR then
      if n = maxEventBytes - st.size then .more advance st
      else
        .token (advance + n) (data.take i)
          { st with
            size := if i = 0 then 0 else st.size + 1 + n
            skipLF := true
            provisionalLF := i ≠ 0 }
    else
      .token (advance + n) (data.take i) { st with size := if i = 0 then 0 else st.size + n }
  | none =>
    if data.length > maxEventBytes - st.size then .fail .eventTooLarge
    else if eof = true ∧ data ≠ [] then .token (advance + data.length) data st
    else .more advance st

/-- One call of the split function that `lines(maxEventBytes)` returns. -/
def lines (maxEventBytes : ℕ) (st : Splitter) (data : Bytes) (eof : Bool) :
    Cut Splitter Bytes DecodeError :=
  if st.skipLF = true ∧ data = [] ∧ eof = false then .more 0 st
  else
    let (advance, st) := skipPending st data
    let data := data.drop advance
    if st.first then
      if eof = false ∧ data.length < bom.length ∧ data <+: bom then .more advance st
      else if bom <+: data then
        cutLine maxEventBytes (advance + bom.length) { st with first := false }
          (data.drop bom.length) eof
      else cutLine maxEventBytes advance { st with first := false } data eof
    else cutLine maxEventBytes advance st data eof

/-! ## The lines of the whole stream -/

/-- A line of the wire: its content, and its length with its terminator. -/
structure WireLine where
  content : Bytes
  size : ℕ
  deriving DecidableEq, Repr

/-- A line gets longer by a byte at its front; at the end of the stream the byte is a line of its
own, without a terminator. -/
def pushByte (b : UInt8) : List WireLine → List WireLine
  | [] => [⟨[b], 1⟩]
  | l :: ls => ⟨b :: l.content, l.size + 1⟩ :: ls

/-- The lines of a stream that is there as a whole. -/
def wireLines : Bytes → List WireLine
  | [] => []
  | b :: bs =>
    if b = lf then ⟨[], 1⟩ :: wireLines bs
    else if b = cr then
      match bs with
      | [] => [⟨[], 1⟩]
      | c :: cs => if c = lf then ⟨[], 2⟩ :: wireLines cs else ⟨[], 1⟩ :: wireLines (c :: cs)
    else pushByte b (wireLines bs)

/-- The lines that fit, when `size` bytes of the current event went before.  A blank line ends an
event. -/
def fitting (maxEventBytes : ℕ) : ℕ → List WireLine → List Bytes × Option DecodeError
  | _, [] => ([], none)
  | size, l :: ls =>
    if maxEventBytes - size < l.size then ([], some .eventTooLarge)
    else
      let r := fitting maxEventBytes (if l.content = [] then 0 else size + l.size) ls
      (l.content :: r.1, r.2)

def stripBom (data : Bytes) : Bytes := if bom <+: data then data.drop bom.length else data

/-- What is left to do on `stream` for a splitter in state `st`, were the stream all there. -/
def wholeLines (maxEventBytes : ℕ) (st : Splitter) (stream : Bytes) :
    List Bytes × Option DecodeError :=
  let (advance, st) := skipPending st stream
  let stream := stream.drop advance
  fitting maxEventBytes st.size (wireLines (if st.first then stripBom stream else stream))

/-- The bytes that are skipped before a line: the LF of a CRLF whose CR ended the line before, and
a leading byte order mark. -/
def lead (st : Splitter) (stream : Bytes) : Bytes :=
  let p := skipPending st stream
  stream.take p.1 ++ if p.2.first = true ∧ bom <+: stream.drop p.1 then bom else []

/-! ## One line of the whole stream -/

def Plain (bs : Bytes) : Prop := ∀ b ∈ bs, isTerminator b = false

theorem wireLines_cons_plain {b : UInt8} (h : isTerminator b = false) (bs : Bytes) :
    wireLines (b :: bs) = pushByte b (wireLines bs) := by
  simp only [isTerminator, Bool.or_eq_false_iff, beq_eq_false_iff_ne] at h
  rw [wireLines.eq_def]
  exact (if_neg h.2).trans (if_neg h.1)

theorem wireLines_lf (bs : Bytes) : wireLines (lf :: bs) = ⟨[], 1⟩ :: wireLines bs := by
  rw [wireLines.eq_def]
  exact if_pos rfl

theorem wireLines_crlf (bs : Bytes) : wireLines (cr :: lf :: bs) = ⟨[], 2⟩ :: wireLines bs := by
  exact ((if_neg (by decide)).trans (if_pos rfl)).trans (if_pos rfl)

theorem wireLines_cr {bs : Bytes} (h : bs.head? ≠ some lf) :
    wireLines (cr :: bs) = ⟨[], 1⟩ :: wireLines bs := by
  rw [wireLines.eq_def]
  refine ((if_neg (by decide)).trans (if_pos rfl)).trans ?_
  cases bs with
  | nil => rfl
  | cons c cs => exact if_neg fun hc => h (by rw [hc, head?_cons])

variable {ls : List WireLine} {pre : Bytes}

theorem wireLines_append {tail : Bytes} {n : ℕ} (hp : Plain pre)
    (h : wireLines tail = ⟨[], n⟩ :: ls) :
    wireLines (pre ++ tail) = ⟨pre, pre.length + n⟩ :: ls := by
  induction pre with
  | nil => simpa using h
  | cons b pre ih =>
    obtain ⟨hb, hp⟩ := forall_mem_cons.mp hp
    rw [cons_append, wireLines_cons_plain hb, ih hp, pushByte, length_cons, Nat.add_right_comm]

variable {data : Bytes}

theorem wireLines_plain (hp : Plain data) :
    wireLines data = if data = [] then [] else [⟨data, data.length⟩] := by
  induction data with
  | nil => rfl
  | cons b data ih =>
    obtain ⟨hb, hp⟩ := forall_mem_cons.mp hp
    rw [wireLines_cons_plain hb, ih hp, if_neg (cons_ne_nil b data)]
    split
    · next h => rw [h]; rfl
    · rfl

theorem wireLines_plain_le (hp : Plain data) (h : data ≠ []) (rest : Bytes) :
    ∃ l ls, wireLines (data ++ rest) = l :: ls ∧ data.length ≤ l.size := by
  induction data with
  | nil => exact absurd rfl h
  | cons b data ih =>
    obtain ⟨hb, hp⟩ := forall_mem_cons.mp hp
    rw [cons_append, wireLines_cons_plain hb]
    by_cases hd : data = []
    · subst hd
      cases wireLines ([] ++ rest) with
      | nil => exact ⟨_, _, rfl, le_rfl⟩
      | cons l ls => exact ⟨_, _, rfl, Nat.le_add_left 1 l.size⟩
    · obtain ⟨l, ls, he, hle⟩ := ih hp hd
      rw [he]
      exact ⟨_, _, rfl, Nat.succ_le_succ hle⟩

theorem eq_append_of_findIdx? {i : ℕ} (h : data.findIdx? isTerminator = some i) :
    ∃ pre c post, data = pre ++ c :: post ∧ pre.length = i ∧ Plain pre ∧ (c = cr ∨ c = lf) := by
  obtain ⟨hi, ht, hb⟩ := findIdx?_eq_some_iff_getElem.mp h
  refine ⟨data.take i, data[i], data.drop (i + 1), ?_, ?_, ?_, ?_⟩
  · rw [← drop_eq_getElem_cons hi, take_append_drop]
  · exact length_take_of_le hi.le
  · intro b hmem
    obtain ⟨j, hj, rfl⟩ := mem_take_iff_getElem.mp hmem
    simpa using hb j (by omega)
  · simpa [isTerminator] using ht

theorem plain_of_findIdx? (h : data.findIdx? isTerminator = none) : Plain data :=
  findIdx?_eq_none_iff.mp h

/-! ## The answers of the splitter -/

/-- The count never passes the limit, and an LF is counted provisionally only while one may still
be skipped: no subtraction of the splitter goes below zero. -/
structure Splitter.Sound (maxEventBytes : ℕ) (st : Splitter) : Prop where
  size_le : st.size ≤ maxEventBytes
  provisional : st.provisionalLF = true → st.skipLF = true ∧ 0 < st.size

variable (maxEventBytes : ℕ) (st : Splitter)

theorem Splitter.start_sound : Splitter.start.Sound maxEventBytes :=
  ⟨Nat.zero_le _, by simp [Splitter.start]⟩

theorem wholeLines_settled (hs : st.skipLF = false) (hf : st.first = false) (stream : Bytes) :
    wholeLines maxEventBytes st stream = fitting maxEventBytes st.size (wireLines stream) := by
  simp [wholeLines, skipPending, hs, hf]

theorem fitting_overrun {maxEventBytes size : ℕ} {l : WireLine}
    (h : maxEventBytes - size < l.size) :
    fitting maxEventBytes size (l :: ls) = ([], some .eventTooLarge) := by
  rw [fitting, if_pos h]

theorem fitting_fits {maxEventBytes size : ℕ} {l : WireLine} (h : l.size ≤ maxEventBytes - size) :
    fitting maxEventBytes size (l :: ls) =
      (l.content :: (fitting maxEventBytes (if l.content = [] then 0 else size + l.size) ls).1,
        (fitting maxEventBytes (if l.content = [] then 0 else size + l.size) ls).2) := by
  rw [fitting, if_neg (Nat.not_lt.mpr h)]

/-- The first part of a call has consumed `advance` bytes of `buf`, and left the state `st` for the
last part. -/
structure Begun (s : Splitter) (buf rest : Bytes) (advance : ℕ) (st : Splitter) : Prop where
  skipLF : st.skipLF = false
  first : st.first = false
  sound : st.Sound maxEventBytes
  le : advance ≤ buf.length
  lead : lead s (buf ++ rest) = buf.take advance
  whole : wholeLines maxEventBytes s (buf ++ rest) =
    fitting maxEventBytes st.size (wireLines (buf.drop advance ++ rest))

section CutLine

variable {maxEventBytes} {advance : ℕ} {st} {s : Splitter} {buf rest : Bytes} {eof : Bool}
  (h : Begun maxEventBytes s buf rest advance st)

include h

theorem complete_agrees {tail : Bytes} {k : ℕ} (hd : buf.drop advance = data)
    (hline : wireLines (data ++ rest) = ⟨pre, pre.length + k⟩ :: wireLines (tail ++ rest))
    (hk : 0 < k) (hlen : pre.length + k ≤ data.length) (htail : data.drop (pre.length + k) = tail) :
    (if pre.length + k > maxEventBytes - st.size then Cut.fail .eventTooLarge
      else Cut.token (advance + (pre.length + k)) pre
        { st with size := if pre.length = 0 then 0 else st.size + (pre.length + k) }).Agrees
      (wholeLines maxEventBytes) (Splitter.Sound maxEventBytes) s buf rest eof := by
  have hbuf : data.length = buf.length - advance := by rw [← hd, length_drop]
  have hw := h.whole
  rw [hd, hline] at hw
  split
  · next hlong =>
      rw [Cut.Agrees, hw]
      exact fitting_overrun hlong
  · next hfit =>
      refine ⟨⟨?_, ?_⟩, by omega, by omega, ?_⟩
      · dsimp only
        split <;> omega
      · intro hp
        exact absurd (h.sound.provisional hp).1 (by simp [h.skipLF])
      · rw [hw, fitting_fits (Nat.not_lt.mp hfit), ← drop_drop, hd, htail,
          wholeLines_settled maxEventBytes _ (by exact h.skipLF) (by exact h.first)]
        simp only [length_eq_zero_iff]

/-- The answer on a line that ends in the last byte of the buffer, a CR: only at the exact limit
does it matter whether an LF follows. -/
theorem trailing_agrees (hd : buf.drop advance = pre ++ [cr]) (hp : Plain pre) :
    (if pre.length + 1 > maxEventBytes - st.size then Cut.fail .eventTooLarge
      else if pre.length + 1 = maxEventBytes - st.size then Cut.more advance st
      else Cut.token (advance + (pre.length + 1)) pre
        { st with
          size := if pre.length = 0 then 0 else st.size + 1 + (pre.length + 1)
          skipLF := true
          provisionalLF := pre.length ≠ 0 }).Agrees
      (wholeLines maxEventBytes) (Splitter.Sound maxEventBytes) s buf rest false := by
  have hbuf : buf.length - advance = pre.length + 1 := by
    rw [← length_drop, hd, length_append, length_singleton]
  have hf := h.first
  have hw := h.whole
  rw [hd, append_assoc, singleton_append] at hw
  -- the line of the whole stream, with or without an LF at the front of what is still to be read
  obtain ⟨k, ls, hk, hline⟩ : ∃ k ls, 1 ≤ k ∧
      wireLines (pre ++ cr :: rest) = ⟨pre, pre.length + k⟩ :: ls := by
    by_cases hlf : rest.head? = some lf
    · obtain ⟨r, rfl⟩ := head?_eq_some_iff.mp hlf
      exact ⟨2, _, by omega, wireLines_append hp (wireLines_crlf r)⟩
    · exact ⟨1, _, le_rfl, wireLines_append hp (wireLines_cr hlf)⟩
  split
  · next hlong =>
      rw [Cut.Agrees, hw, hline]
      exact fitting_overrun (by dsimp only; omega)
  · next hfit =>
      split
      · rw [Cut.Agrees, if_neg (by simp)]
        refine ⟨h.sound, ?_⟩
        rw [h.whole, wholeLines_settled maxEventBytes st h.skipLF hf]
      · next hne =>
          refine ⟨⟨?_, ?_⟩, by omega, by omega, ?_⟩
          · dsimp only
            split <;> omega
          · intro h
            have h0 : pre.length ≠ 0 := by simpa using h
            exact ⟨rfl, by simp only [if_neg h0]; omega⟩
          · have hnil : (pre ++ [cr]).drop (pre.length + 1) = [] :=
              drop_eq_nil_of_le (by simp)
            rw [hw, ← drop_drop, hd, hnil, nil_append]
            by_cases hlf : rest.head? = some lf
            · obtain ⟨r, rfl⟩ := head?_eq_some_iff.mp hlf
              rw [wireLines_append hp (wireLines_crlf r), fitting_fits (by dsimp only; omega)]
              simp [wholeLines, skipPending, hf, Nat.add_assoc, Nat.add_comm 1]
            · rw [wireLines_append hp (wireLines_cr hlf), fitting_fits (by dsimp only; omega)]
              by_cases h0 : pre = [] <;>
                simp [wholeLines, skipPending, hf, hlf, h0, Nat.add_assoc, Nat.add_comm 1]

omit h in
theorem cutLine_terminated {post : Bytes} {c : UInt8}
    (h : (pre ++ c :: post).findIdx? isTerminator = some pre.length) :
    cutLine maxEventBytes advance st (pre ++ c :: post) eof =
      let n := if c = cr ∧ post.head? = some lf then pre.length + 2 else pre.length + 1
      if n > maxEventBytes - st.size then .fail .eventTooLarge
      else if c = cr ∧ post = [] ∧ eof = false then
        if n = maxEventBytes - st.size then .more advance st
        else
          .token (advance + n) pre
            { st with
              size := if pre.length = 0 then 0 else st.size + 1 + n
              skipLF := true
              provisionalLF := pre.length ≠ 0 }
      else .token (advance + n) pre
        { st with size := if pre.length = 0 then 0 else st.size + n } := by
  have hlen : pre.length + 1 = (pre ++ c :: post).length ↔ post = [] := by
    rw [length_append, length_cons, ← length_eq_zero_iff]
    omega
  have hpost : (pre ++ c :: post)[pre.length + 1]? = post.head? := by
    rw [getElem?_append_right (Nat.le_add_right _ 1), Nat.add_sub_cancel_left,
      getElem?_cons_succ, head?_eq_getElem?]
  have hc : (pre ++ c :: post)[pre.length]? = some c := by
    rw [getElem?_append_right le_rfl, Nat.sub_self, getElem?_cons_zero]
  rw [cutLine, h]
  simp only [hlen, hpost, hc, Option.some.injEq, take_left]

/-- The last part of a call, on the part of the buffer the first part left over. -/
theorem cutLine_agrees (heof : eof = true → rest = []) :
    (cutLine maxEventBytes advance st (buf.drop advance) eof).Agrees (wholeLines maxEventBytes)
      (Splitter.Sound maxEventBytes) s buf rest eof := by
  have hw := h.whole
  generalize hd : buf.drop advance = data at hw ⊢
  cases hidx : data.findIdx? isTerminator with
  | some i =>
    obtain ⟨pre, c, post, rfl, rfl, hp, hc⟩ := eq_append_of_findIdx? hidx
    have hdrop : ∀ k, (pre ++ c :: post).drop (pre.length + k) = (c :: post).drop k := by
      intro k
      rw [← drop_drop, drop_left]
    have hlen : ∀ k, k ≤ post.length + 1 → pre.length + k ≤ (pre ++ c :: post).length := by
      intro k hk
      rw [length_append, length_cons]
      omega
    rw [cutLine_terminated hidx]
    rcases hc with rfl | rfl
    · by_cases hlf : post.head? = some lf
      · obtain ⟨r, rfl⟩ := head?_eq_some_iff.mp hlf
        refine complete_agrees h hd ?_ Nat.two_pos (hlen 2 (by simp)) (hdrop 2)
        rw [append_assoc]
        exact wireLines_append hp (wireLines_crlf _)
      · simp only [hlf, and_false, if_false, true_and]
        by_cases htrail : post = [] ∧ eof = false
        · obtain ⟨rfl, rfl⟩ := htrail
          exact trailing_agrees h hd hp
        · rw [if_neg htrail]
          refine complete_agrees h hd ?_ Nat.one_pos (hlen 1 (by simp)) (hdrop 1)
          rw [append_assoc]
          refine wireLines_append hp (wireLines_cr ?_)
          -- nothing follows the buffer at the end of the stream
          cases post with
          | nil => simp [heof (by simpa using htrail)]
          | cons x r => simpa using hlf
    · have hne : lf ≠ cr := by decide
      refine complete_agrees h hd ?_ Nat.one_pos (hlen 1 (by simp)) (hdrop 1)
      rw [append_assoc]
      exact wireLines_append hp (wireLines_lf _)
  | none =>
    have hp := plain_of_findIdx? hidx
    have hsettled := wholeLines_settled maxEventBytes st h.skipLF h.first
    rw [cutLine, hidx]
    dsimp only
    split
    · next hlong =>
        -- the line is too long already, wherever it ends
        obtain ⟨l, ls, he, hll⟩ := wireLines_plain_le hp (by rintro rfl; simp at hlong) rest
        rw [Cut.Agrees, hw, he]
        exact fitting_overrun (by omega)
    · next hfit =>
        split
        · next h' =>
            obtain ⟨he, hne⟩ := h'
            obtain rfl := heof he
            have hpos := length_pos_iff.mpr hne
            have hbuf : data.length = buf.length - advance := by rw [← hd, length_drop]
            refine ⟨h.sound, by omega, by omega, ?_⟩
            rw [hw, append_nil, wireLines_plain hp, if_neg hne,
              fitting_fits (by simpa using hfit), ← drop_drop, hd, drop_length, hsettled]
            rfl
        · next h' =>
            cases eof with
            | false => exact ⟨h.sound, by rw [hw, hd, hsettled]⟩
            | true =>
              obtain rfl : data = [] := by simpa using h'
              obtain rfl := heof rfl
              rw [Cut.Agrees, if_pos rfl]
              simpa [wireLines, fitting] using hw

end CutLine

theorem skipPending_skipLF (data : Bytes) : (skipPending st data).2.skipLF = false := by
  unfold skipPending
  split_ifs <;> simp_all

theorem skipPending_le (data : Bytes) : (skipPending st data).1 ≤ data.length := by
  unfold skipPending
  split_ifs with _ h <;> try exact Nat.zero_le _
  obtain ⟨r, rfl⟩ := head?_eq_some_iff.mp h
  simp

theorem skipPending_sound {maxEventBytes : ℕ} {st : Splitter} (h : st.Sound maxEventBytes)
    (data : Bytes) : (skipPending st data).2.Sound maxEventBytes := by
  have hsize := h.size_le
  unfold skipPending
  split_ifs
  · exact ⟨hsize, by simp⟩
  · exact ⟨Nat.le_trans (Nat.sub_le _ _) hsize, by simp⟩
  · exact ⟨hsize, by simp⟩
  · exact h

/-- Once there is a byte, or none to come, the skipped LF does not depend on what is still to be
read. -/
theorem skipPending_append {st : Splitter} {rest : Bytes}
    (h : st.skipLF = true → data = [] → rest = []) :
    skipPending st (data ++ rest) = skipPending st data := by
  unfold skipPending
  cases data with
  | nil =>
    by_cases hs : st.skipLF = true
    · rw [h hs rfl, append_nil]
    · rw [if_neg hs, if_neg hs]
  | cons b data => rfl

theorem stripBom_of_isPrefix (h : bom <+: data) (rest : Bytes) :
    stripBom (data ++ rest) = data.drop bom.length ++ rest := by
  rw [stripBom, if_pos (h.trans (prefix_append data rest)), drop_append_of_le_length h.length_le]

theorem stripBom_of_not_isPrefix {rest : Bytes} {eof : Bool} (heof : eof = true → rest = [])
    (hw : ¬ (eof = false ∧ data.length < bom.length ∧ data <+: bom)) (h : ¬ bom <+: data) :
    stripBom (data ++ rest) = data ++ rest := by
  refine if_neg fun hb => ?_
  rcases Nat.lt_or_ge data.length bom.length with hlt | hge
  · have hp : data <+: bom := prefix_of_prefix_length_le (prefix_append data rest) hb hlt.le
    cases eof with
    | false => exact hw ⟨rfl, hlt, hp⟩
    | true => exact h (by simpa [heof rfl] using hb)
  · exact h (prefix_of_prefix_length_le hb (prefix_append data rest) hge)

/-- A call of the splitter waits for what comes next, or cuts a line. -/
theorem lines_cases {s : Splitter} {buf rest : Bytes} {eof : Bool} (hi : s.Sound maxEventBytes)
    (heof : eof = true → rest = []) :
    (eof = false ∧ ∃ advance st, lines maxEventBytes s buf eof = .more advance st ∧
      advance ≤ buf.length ∧ st.Sound maxEventBytes ∧
      lead s (buf ++ rest) = buf.take advance ++ lead st (buf.drop advance ++ rest) ∧
      wholeLines maxEventBytes s (buf ++ rest) =
        wholeLines maxEventBytes st (buf.drop advance ++ rest)) ∨
    ∃ advance st, Begun maxEventBytes s buf rest advance st ∧
      lines maxEventBytes s buf eof = cutLine maxEventBytes advance st (buf.drop advance) eof := by
  rw [lines]
  split
  · next h =>
      obtain ⟨-, rfl, rfl⟩ := h
      exact .inl ⟨rfl, 0, s, rfl, le_rfl, hi, rfl, rfl⟩
  · next h =>
      have hskip : skipPending s (buf ++ rest) = skipPending s buf := by
        apply skipPending_append
        rintro hs rfl
        exact heof (by simpa [hs] using h)
      have hle := skipPending_le s buf
      have hst := skipPending_skipLF s buf
      have hsound := skipPending_sound hi buf
      have hl : lead s (buf ++ rest) = buf.take (skipPending s buf).1 ++
          if (skipPending s buf).2.first = true ∧
            bom <+: buf.drop (skipPending s buf).1 ++ rest then bom else [] := by
        rw [lead, hskip, take_append_of_le_length hle, drop_append_of_le_length hle]
      have hw : wholeLines maxEventBytes s (buf ++ rest) =
          fitting maxEventBytes (skipPending s buf).2.size
            (wireLines (if (skipPending s buf).2.first then
              stripBom (buf.drop (skipPending s buf).1 ++ rest)
              else buf.drop (skipPending s buf).1 ++ rest)) := by
        rw [wholeLines, hskip]
        dsimp only
        rw [drop_append_of_le_length hle]
      generalize skipPending s buf = p at hle hst hsound hl hw
      obtain ⟨advance, st⟩ := p
      dsimp only at hle hst hsound hl hw ⊢
      split
      · next hfirst =>
          rw [if_pos hfirst] at hw
          have hsound' : Splitter.Sound maxEventBytes { st with first := false } :=
            ⟨hsound.size_le, hsound.provisional⟩
          split
          · next hwait =>
              refine .inl ⟨hwait.1, advance, st, rfl, hle, hsound, hl.trans ?_, hw.trans ?_⟩
              · simp [lead, skipPending, hst]
              · simp [wholeLines, skipPending, hst, hfirst]
          · next hwait =>
              have hstrip := stripBom_of_not_isPrefix heof hwait
              split
              · next hbom =>
                  have hlen := hbom.length_le
                  rw [length_drop] at hlen
                  rw [if_pos ⟨hfirst, hbom.trans (prefix_append _ _)⟩] at hl
                  rw [stripBom_of_isPrefix hbom] at hw
                  rw [drop_drop] at hw ⊢
                  refine .inr ⟨_, { st with first := false },
                    ⟨hst, rfl, hsound', by omega, ?_, hw⟩, rfl⟩
                  rw [hl, take_add]
                  exact congrArg _ (prefix_iff_eq_take.mp hbom)
              · next hbom =>
                  have hnot : ¬ bom <+: buf.drop advance ++ rest := by
                    intro hb
                    have hsame := congrArg length (hstrip hbom)
                    have hlen := hb.length_le
                    have h3 : bom.length = 3 := rfl
                    rw [stripBom, if_pos hb, length_drop] at hsame
                    omega
                  rw [if_neg (fun h => hnot h.2), append_nil] at hl
                  rw [hstrip hbom] at hw
                  exact .inr ⟨_, { st with first := false }, ⟨hst, rfl, hsound', hle, hl, hw⟩, rfl⟩
      · next hfirst =>
          rw [if_neg (by simp [hfirst]), append_nil] at hl
          rw [if_neg hfirst] at hw
          exact .inr ⟨_, _, ⟨hst, by simpa using hfirst, hsound, hle, hl, hw⟩, rfl⟩

/-- Every answer of the splitter agrees with the lines of the whole stream. -/
theorem lines_coherent :
    Coherent (lines maxEventBytes) (wholeLines maxEventBytes) (Splitter.Sound maxEventBytes) := by
  intro s buf rest eof hi heof
  rcases lines_cases maxEventBytes hi heof with
    ⟨rfl, advance, st, hcut, -, hsound, -, hw⟩ | ⟨advance, st, hbegun, hcut⟩
  · rw [hcut]
    exact ⟨hsound, hw⟩
  · rw [hcut]
    exact cutLine_agrees hbegun heof

/-- The lines a decoder reads off a stream, and the error the scanner ends with. -/
def scanLines (maxEventBytes : ℕ) (reads : List Bytes) : Option (List Bytes × Option DecodeError) :=
  tokens (lines maxEventBytes) (reads.flatten.length + 1) reads Splitter.start []

theorem scanLines_eq (reads : List Bytes) :
    scanLines maxEventBytes reads =
      some (fitting maxEventBytes 0 (wireLines (stripBom reads.flatten))) :=
  tokens_eq_whole (lines_coherent maxEventBytes) _ reads _ []
    (Splitter.start_sound maxEventBytes) (Nat.lt_succ_self _)

end Olp.Sse
