import Olp.Sse.Frames

/-!
# Passing a stream on

The model of `sse/raw.go`: a decoder that returns the wire bytes of a stream piece by piece, with
the data of the events in them, and the replacement of a range of that data in the wire bytes.

A line is cut off the stream along with its terminator and what was skipped before it (`Chunk`);
whether the LF of a CRLF comes with its line or with the next depends on the reads.
-/

namespace Olp.Sse

open Olp.Scanner List

/-! ## The decoder -/

/-- The bytes of the data that a line holds, and where they stand in the wire bytes. -/
structure DataRange where
  start : ℕ
  stop : ℕ
  wireStart : ℕ
  deriving DecidableEq, Repr

structure RawFrame where
  bytes : Bytes
  data : Bytes
  hasData : Bool
  ranges : List DataRange
  deriving DecidableEq, Repr

/-- `ReplaceData`. -/
def RawFrame.replaceData (frame : RawFrame) (start stop : ℤ) (replacement : Bytes) :
    Except String Bytes :=
  match frame.ranges.find? fun part => part.start ≤ start ∧ stop ≤ part.stop with
  | none => .error "replacement crosses SSE data lines"
  | some part =>
    if start > stop then .error "replacement crosses SSE data lines"
    else
      let wireStart := part.wireStart + start - part.start
      let wireStop := part.wireStart + stop - part.start
      .ok (frame.bytes.take wireStart.toNat ++ replacement ++ frame.bytes.drop wireStop.toNat)

/-- `bytes.LastIndex`. -/
def lastIndex (sep : Bytes) : Bytes → Option ℕ
  | [] => if sep = [] then some 0 else none
  | b :: s =>
    match lastIndex sep s with
    | some i => some (i + 1)
    | none => if sep <+: b :: s then some 0 else none

/-- A raw decoder: the reads still to come, what is buffered, the variables of the splitter, and
the wire bytes, the data and the ranges since the last frame. -/
structure RawDecoder where
  limit : ℕ
  reads : List Bytes
  buf : Bytes
  splitter : Splitter
  wire : Bytes
  data : Bytes
  ranges : List DataRange

def newRawDecoder (reads : List Bytes) (limit : ℤ) : RawDecoder where
  limit := (max 1 limit).toNat
  reads := reads
  buf := []
  splitter := .start
  wire := []
  data := []
  ranges := []

/-- The split function of the scanner, which keeps the wire bytes it has consumed. -/
def rawLines (limit : ℕ) : Splitter × Bytes → Bytes → Bool →
    Cut (Splitter × Bytes) Bytes DecodeError :=
  recorded (lines limit)

def RawDecoder.take (d : RawDecoder) (hasData : Bool) : RawFrame × RawDecoder :=
  (⟨d.wire, d.data, hasData, d.ranges⟩, { d with wire := [], data := [], ranges := [] })

/-- A line of data.  The line is part of the wire bytes, so the default is never taken
(`lastIndex_line`). -/
def RawDecoder.push (d : RawDecoder) (line : Bytes) : RawDecoder :=
  let content := fieldValue line
  let data := if d.ranges ≠ [] then d.data ++ [lf] else d.data
  { d with
    data := data ++ content
    ranges := d.ranges ++ [⟨data.length, data.length + content.length,
      (lastIndex line d.wire).getD 0 + line.length - content.length⟩] }

/-- The loop of `Next`. -/
def RawDecoder.nextLoop : ℕ → RawDecoder → Option (Except DecodeError (RawFrame × RawDecoder))
  | 0, _ => none
  | fuel + 1, d =>
    match scan (rawLines d.limit) d.reads (d.splitter, d.wire) d.buf with
    | .failed e => some (.error e)
    | .done =>
      let s := leftover (rawLines d.limit) d.reads (d.splitter, d.wire) d.buf
      let d := { d with reads := [], buf := [], splitter := s.1, wire := s.2 }
      if d.wire ≠ [] then some (.ok (d.take false)) else some (.error .eof)
    | .token line s buf reads =>
      let d := { d with reads, buf, splitter := s.1, wire := s.2 }
      if !validString line then some (.error .invalidUtf8)
      else if line = [] then some (.ok (d.take (d.ranges ≠ [])))
      else if fieldName line ≠ ascii "data" then
        if d.ranges = [] then some (.ok (d.take false)) else d.nextLoop fuel
      else (d.push line).nextLoop fuel

def RawDecoder.next (d : RawDecoder) : Option (Except DecodeError (RawFrame × RawDecoder)) :=
  d.nextLoop ((d.buf ++ d.reads.flatten).length + 1)

/-- What repeated calls of `Next` return: the frames, and the error after the last of them. -/
def RawDecoder.drain : ℕ → RawDecoder → Option (List RawFrame × DecodeError)
  | 0, _ => none
  | fuel + 1, d => do
    match ← d.next with
    | .error e => some ([], e)
    | .ok (frame, d') =>
      let r ← d'.drain fuel
      some (frame :: r.1, r.2)

/-- Everything the raw decoder of a stream returns. -/
def rawFrames (reads : List Bytes) (limit : ℤ) : Option (List RawFrame × DecodeError) :=
  (newRawDecoder reads limit).drain (reads.flatten.length + 1)

/-! ## What a line consumes -/

/-- How the text of a line ends, in front of the rest of the stream. -/
inductive Ends (t : Bytes) (st : Splitter) : Bytes → Bytes → Prop
  | /-- The terminator is there as a whole. -/
    whole {term after : Bytes} : term = [lf] ∨ term = [cr, lf] → st.skipLF = false →
      Ends t st term after
  | /-- A CR, whose LF is still to be skipped if there is one. -/
    cr {after : Bytes} : st.skipLF = true ∨ after.head? ≠ some lf → Ends t st [cr] after
  | /-- The stream ends without a terminator. -/
    eof : t ≠ [] → Ends t st [] []

/-- `Chunk st stream c t st'`: the bytes `c` off the front of `stream` are those of the line
`t`. -/
def Chunk (st : Splitter) (stream c t : Bytes) (st' : Splitter) : Prop :=
  Plain t ∧ st'.first = false ∧ ∃ term after, c = lead st stream ++ (t ++ term) ∧
    stream = c ++ after ∧ Ends t st' term after

theorem lead_settled {st : Splitter} (hs : st.skipLF = false) (hf : st.first = false)
    (stream : Bytes) : lead st stream = [] := by
  simp [lead, skipPending, hs, hf]

theorem Chunk.of_lead {s st : Splitter} {buf rest c t : Bytes} {n : ℕ} {st' : Splitter}
    (hl : lead s (buf ++ rest) = buf.take n ++ lead st (buf.drop n ++ rest))
    (h : Chunk st (buf.drop n ++ rest) c t st') :
    Chunk s (buf ++ rest) (buf.take n ++ c) t st' := by
  obtain ⟨hp, hf, term, after, hc, hs, he⟩ := h
  refine ⟨hp, hf, term, after, ?_, ?_, he⟩
  · rw [hl, hc, append_assoc]
  · rw [append_assoc, ← hs, ← append_assoc, take_append_drop]

section Consumes

variable {maxEventBytes advance : ℕ} {s st : Splitter} {buf rest : Bytes} {eof : Bool}
  (h : Begun maxEventBytes s buf rest advance st)

include h

theorem token_consumes {t : Bytes} (term tail : Bytes) {n : ℕ} {st' : Splitter}
    (hd : buf.drop advance = t ++ (term ++ tail)) (hn : n = t.length + term.length) (hp : Plain t)
    (hf : st'.first = false) (he : Ends t st' term (tail ++ rest)) :
    (Cut.token (advance + n) t st' : Cut Splitter Bytes DecodeError).Consumes Chunk s buf rest
      eof := by
  have hle := h.le
  have hbuf : buf = buf.take advance ++ (t ++ (term ++ tail)) := by
    rw [← hd, take_append_drop]
  have hlen := congrArg List.length hd
  simp only [length_drop, length_append] at hlen
  have htake : buf.take (advance + n) = buf.take advance ++ (t ++ term) := by
    rw [take_add, hd, ← append_assoc, hn, ← length_append, take_left]
  refine ⟨by omega, hp, hf, term, tail ++ rest, ?_, ?_, he⟩
  · rw [htake, h.lead]
  · rw [htake]
    nth_rewrite 1 [hbuf]
    simp only [append_assoc]

theorem cutLine_consumes (heof : eof = true → rest = []) :
    (cutLine maxEventBytes advance st (buf.drop advance) eof).Consumes Chunk s buf rest eof := by
  have hmore : ∀ c t s'', Chunk st (buf.drop advance ++ rest) c t s'' →
      Chunk s (buf ++ rest) (buf.take advance ++ c) t s'' := by
    intro c t s'' hc
    exact hc.of_lead (by rw [h.lead, lead_settled h.skipLF h.first, append_nil])
  generalize hd : buf.drop advance = data
  cases hidx : data.findIdx? isTerminator with
  | some i =>
    obtain ⟨pre, c, post, rfl, rfl, hp, hc⟩ := eq_append_of_findIdx? hidx
    rw [cutLine_terminated hidx]
    rcases hc with rfl | rfl
    · by_cases hlf : post.head? = some lf
      · obtain ⟨r, rfl⟩ := head?_eq_some_iff.mp hlf
        simp only [hlf, and_self, if_true, reduceCtorEq, false_and, and_false, if_false]
        split
        · trivial
        · exact token_consumes h [cr, lf] r hd rfl hp h.first (.whole (.inr rfl) h.skipLF)
      · simp only [hlf, and_false, if_false, true_and]
        split
        · trivial
        · split
          · next htrail =>
              obtain ⟨rfl, rfl⟩ := htrail
              split
              · exact ⟨h.le, by simp, hmore⟩
              · exact token_consumes h [cr] [] hd rfl hp h.first (.cr (.inl rfl))
          · next htrail =>
              refine token_consumes h [cr] post hd rfl hp h.first (.cr (.inr ?_))
              -- nothing follows the buffer at the end of the stream
              cases post with
              | nil => simp [heof (by simpa using htrail)]
              | cons x r => simpa using hlf
    · have hne : lf ≠ cr := by decide
      simp only [hne, false_and, if_false]
      split
      · trivial
      · exact token_consumes h [lf] post hd rfl hp h.first (.whole (.inl rfl) h.skipLF)
  | none =>
    have hp := plain_of_findIdx? hidx
    rw [cutLine, hidx]
    dsimp only
    split
    · trivial
    · split
      · next h' =>
          obtain ⟨he, hne⟩ := h'
          obtain rfl := heof he
          exact token_consumes h [] [] (by simpa using hd) rfl hp h.first (.eof hne)
      · next h' =>
          refine ⟨h.le, ?_, hmore⟩
          rintro rfl
          obtain rfl : data = [] := by simpa using h'
          exact Nat.le_antisymm h.le (drop_eq_nil_iff.mp hd)

end Consumes

/-- Every answer of the splitter consumes the bytes of its line. -/
theorem lines_consumes (maxEventBytes : ℕ) {s : Splitter} (hi : s.Sound maxEventBytes)
    (buf rest : Bytes) (eof : Bool) (heof : eof = true → rest = []) :
    (lines maxEventBytes s buf eof).Consumes Chunk s buf rest eof := by
  rcases lines_cases maxEventBytes hi heof with
    ⟨rfl, advance, st, hcut, hle, -, hl, -⟩ | ⟨advance, st, hbegun, hcut⟩
  · rw [hcut]
    exact ⟨hle, by simp, fun c t s'' h => h.of_lead hl⟩
  · rw [hcut]
    exact cutLine_consumes hbegun heof

end Olp.Sse
