import Olp.Sse.Lines

/-!
# Decoding server-sent events

The decoder reads lines off the scanner of `Olp.Sse.Lines`, collects the fields of an event and
returns a frame at the blank line that ends it.  A scanner is represented by what can be seen of
it: the lines its calls will return, and the error it reports after the last of them.

`newDecoder_reads` shows that a decoder does not depend on how its stream was cut into reads, and
`terminal_eventTooLarge_iff` at which event it stops with `eventTooLarge`.
-/

namespace Olp.Sse

open List

/-! ## Frames and fields -/

def ascii (s : String) : Bytes := s.toList.map fun c => UInt8.ofNat c.toNat

def colon : UInt8 := 58

def space : UInt8 := 32

/-- A continuation byte within the range that its lead byte allows. -/
def inRange (lo hi b : UInt8) : Bool := lo ≤ b && b ≤ hi

/-- `utf8.ValidString`: neither overlong encodings nor surrogates are valid. -/
def validString : Bytes → Bool
  | [] => true
  | b :: bs =>
    if b < 0x80 then validString bs
    else if inRange 0xC2 0xDF b then
      match bs with
      | c :: rest => inRange 0x80 0xBF c && validString rest
      | [] => false
    else if inRange 0xE0 0xEF b then
      match bs with
      | c :: d :: rest =>
        inRange (if b = 0xE0 then 0xA0 else 0x80) (if b = 0xED then 0x9F else 0xBF) c &&
          inRange 0x80 0xBF d && validString rest
      | _ => false
    else if inRange 0xF0 0xF4 b then
      match bs with
      | c :: d :: e :: rest =>
        inRange (if b = 0xF0 then 0x90 else 0x80) (if b = 0xF4 then 0x8F else 0xBF) c &&
          inRange 0x80 0xBF d && inRange 0x80 0xBF e && validString rest
      | _ => false
    else false

structure Frame where
  event : Option Bytes
  data : Bytes
  id : Option Bytes
  retryMS : Option ℕ
  control : Bool
  deriving DecidableEq, Repr

/-- The fields of the event that is being read. -/
structure Fields where
  event : Option Bytes
  id : Option Bytes
  retry : Option ℕ
  data : List Bytes

def Fields.empty : Fields := ⟨none, none, none, []⟩

/-- Whether a blank line returns a frame. -/
def Fields.dispatches (f : Fields) : Bool :=
  !f.data.isEmpty || f.event.isSome || f.id.isSome || f.retry.isSome

def Fields.frame (f : Fields) : Frame where
  event := f.event
  data := List.intercalate [lf] f.data
  id := f.id
  retryMS := f.retry
  control := f.data.isEmpty

def isDigit (b : UInt8) : Bool := inRange 48 57 b

/-- `strconv.ParseUint(value, 10, 64)` on digits. -/
def parseUint (value : Bytes) : Option ℕ :=
  let n := value.foldl (fun n b => 10 * n + (b.toNat - 48)) 0
  if n < 2 ^ 64 then some n else none

/-- A line of an event, cut at its first colon; one space after the colon is dropped. -/
def fieldName (line : Bytes) : Bytes := line.takeWhile (· != colon)

def fieldValue (line : Bytes) : Bytes :=
  let value := (line.dropWhile (· != colon)).drop 1
  if value.head? = some space then value.drop 1 else value

def setsId (line : Bytes) : Bool := fieldName line == ascii "id" && !(fieldValue line).contains 0

/-- A line that is neither blank nor a comment. -/
def Fields.read (f : Fields) (line : Bytes) : Fields :=
  let value := fieldValue line
  if fieldName line = ascii "data" then { f with data := f.data ++ [value] }
  else if fieldName line = ascii "event" then
    { f with event := if value ≠ [] then some value else none }
  else if fieldName line = ascii "id" then
    if value.contains 0 then f else { f with id := some value }
  else if fieldName line = ascii "retry" then
    if value ≠ [] ∧ value.all isDigit then
      match parseUint value with
      | some n => { f with retry := some n }
      | none => f
    else f
  else f

/-! ## The decoder -/

/-- A decoder: the lines its scanner will return, the error the scanner then reports, the
identifier last set by the stream, and the error the decoder has ended with. -/
structure Decoder where
  onComment : Option (Bytes → Option String)
  lines : List Bytes
  stop : Option DecodeError
  id : Option Bytes
  err : Option DecodeError

/-- A decoder of the stream that arrives as `reads`.  The scanner always reaches the end
(`scanLines_eq`), so the default is never taken. -/
def newDecoder (onComment : Option (Bytes → Option String)) (reads : List Bytes)
    (maxEventBytes : ℤ) : Decoder :=
  if maxEventBytes < 1 then ⟨onComment, [], none, none, some .limitNotPositive⟩
  else
    let scanned := (scanLines maxEventBytes.toNat reads).getD ([], none)
    ⟨onComment, scanned.1, scanned.2, none, none⟩

def Decoder.fail (d : Decoder) (lines : List Bytes) (id : Option Bytes) (e : DecodeError) :
    Except DecodeError Frame × Decoder :=
  (.error e, { d with lines, id, err := some e })

/-- The loop of `NextFrame`. -/
def Decoder.readFrame (d : Decoder) :
    List Bytes → Option Bytes → Fields → Except DecodeError Frame × Decoder
  | [], id, _ => d.fail [] id (d.stop.getD .eof)
  | line :: rest, id, f =>
    if !validString line then d.fail rest id .invalidUtf8
    else if line.isEmpty then
      if f.dispatches then (.ok f.frame, { d with lines := rest, id })
      else d.readFrame rest id { f with event := none, retry := none }
    else if line.head? = some colon then
      match d.onComment.bind fun callback => callback line with
      | some detail => d.fail rest id (.commentRefused detail)
      | none => d.readFrame rest id f
    else d.readFrame rest (if setsId line then some (fieldValue line) else id) (f.read line)

def Decoder.nextFrame (d : Decoder) : Except DecodeError Frame × Decoder :=
  match d.err with
  | some e => (.error e, d)
  | none => d.readFrame d.lines d.id Fields.empty

/-- The loop of `Next`, over the frames that dispatch no event. -/
def Decoder.nextLoop : ℕ → Decoder → Option (Except DecodeError Frame × Decoder)
  | 0, _ => none
  | fuel + 1, d =>
    match d.nextFrame with
    | (.error e, d') => some (.error e, d')
    | (.ok frame, d') =>
      if frame.control then d'.nextLoop fuel else some (.ok { frame with id := d'.id }, d')

def Decoder.next (d : Decoder) : Option (Except DecodeError Frame × Decoder) :=
  d.nextLoop (d.lines.length + 1)

/-- What repeated calls return: the frames, and the error after the last of them. -/
def drain (call : Decoder → Option (Except DecodeError Frame × Decoder)) :
    ℕ → Decoder → Option (List Frame × DecodeError)
  | 0, _ => none
  | fuel + 1, d => do
    match ← call d with
    | (.error e, _) => some ([], e)
    | (.ok frame, d') =>
      let r ← drain call fuel d'
      some (frame :: r.1, r.2)

/-- Everything `NextFrame` returns. -/
def Decoder.frames (d : Decoder) : Option (List Frame × DecodeError) :=
  drain (fun d => some d.nextFrame) (d.lines.length + 1) d

/-- Everything `Next` returns. -/
def Decoder.events (d : Decoder) : Option (List Frame × DecodeError) :=
  drain Decoder.next (d.lines.length + 1) d

/-! ## What a decoder ends with -/

/-- Why the decoder stops at a line, if it does. -/
def refusal (onComment : Option (Bytes → Option String)) (line : Bytes) : Option DecodeError :=
  if !validString line then some .invalidUtf8
  else if line.head? = some colon then
    (onComment.bind fun callback => callback line).map .commentRefused
  else none

/-- The first refusal among the lines, or else what the scanner reports at their end. -/
def terminal (onComment : Option (Bytes → Option String)) (stop : Option DecodeError) :
    List Bytes → DecodeError
  | [] => stop.getD .eof
  | line :: rest => (refusal onComment line).getD (terminal onComment stop rest)

def Decoder.terminal (d : Decoder) : DecodeError :=
  d.err.getD (Sse.terminal d.onComment d.stop d.lines)

/-- An answer leads on to the decoder's terminal error: it is that error, or it is a frame, after
which fewer lines are left and the same error is to come. -/
def Decoder.LeadsOn (d : Decoder) : Except DecodeError Frame × Decoder → Prop
  | (.error e, _) => e = d.terminal
  | (.ok _, d') => d'.terminal = d.terminal ∧ d'.lines.length < d.lines.length

variable {rest : List Bytes}

theorem terminal_of_none {onComment : Option (Bytes → Option String)} {stop : Option DecodeError}
    {line : Bytes} (h : refusal onComment line = none) :
    terminal onComment stop (line :: rest) = terminal onComment stop rest := by
  rw [terminal, h, Option.getD_none]

theorem terminal_of_some {onComment : Option (Bytes → Option String)} {stop : Option DecodeError}
    {line : Bytes} {e : DecodeError} (h : refusal onComment line = some e) :
    terminal onComment stop (line :: rest) = e := by
  rw [terminal, h, Option.getD_some]

theorem Decoder.LeadsOn.tail {d : Decoder} {line : Bytes} {r : Except DecodeError Frame × Decoder}
    (hr : refusal d.onComment line = none) (h : Decoder.LeadsOn { d with lines := rest } r) :
    Decoder.LeadsOn { d with lines := line :: rest } r := by
  have ht : Decoder.terminal { d with lines := line :: rest } =
      Decoder.terminal { d with lines := rest } := by
    unfold Decoder.terminal
    rw [terminal_of_none hr]
  obtain ⟨answer, d'⟩ := r
  cases answer with
  | error e => exact Eq.trans h ht.symm
  | ok frame => exact ⟨h.1.trans ht.symm, Nat.lt_succ_of_lt h.2⟩

/-- What a line does to the fields, when the decoder does not stop at it. -/
def Fields.line (f : Fields) (line : Bytes) : Fields :=
  if line.head? = some colon then f else f.read line

/-- The loop stops at a line that is refused or ends a frame, or it goes on to the next line. -/
theorem Decoder.readFrame_cons (d : Decoder) (line : Bytes) (id : Option Bytes) (f : Fields) :
    (∃ e, refusal d.onComment line = some e ∧ d.readFrame (line :: rest) id f = d.fail rest id e) ∨
      refusal d.onComment line = none ∧ (line = [] ∧ f.dispatches = true ∧
          d.readFrame (line :: rest) id f = (.ok f.frame, { d with lines := rest, id }) ∨
        ∃ id' f', d.readFrame (line :: rest) id f = d.readFrame rest id' f' ∧
          (line = [] ∧ f.dispatches = false ∧ f' = { f with event := none, retry := none } ∨
            line ≠ [] ∧ f' = f.line line)) := by
  rw [Decoder.readFrame]
  split
  · next hv => exact .inl ⟨_, by simp [refusal, hv], rfl⟩
  · next hv =>
      split
      · next hblank =>
          obtain rfl : line = [] := List.isEmpty_iff.mp hblank
          refine .inr ⟨by simp [refusal, validString], ?_⟩
          split
          · next hdisp => exact .inl ⟨rfl, hdisp, rfl⟩
          · next hdisp => exact .inr ⟨_, _, rfl, .inl ⟨rfl, by simpa using hdisp, rfl⟩⟩
      · next hblank =>
          have hne : line ≠ [] := by simpa using hblank
          split
          · next hcomment =>
              split
              · next he => exact .inl ⟨_, by simp [refusal, hv, hcomment, he], rfl⟩
              · next he =>
                  refine .inr ⟨by simp [refusal, hv, hcomment, he], ?_⟩
                  exact .inr ⟨_, _, rfl, .inr ⟨hne, (if_pos hcomment).symm⟩⟩
          · next hcomment =>
              refine .inr ⟨by simp [refusal, hv, hcomment], ?_⟩
              exact .inr ⟨_, _, rfl, .inr ⟨hne, (if_neg hcomment).symm⟩⟩

theorem Decoder.readFrame_leadsOn (d : Decoder) (hd : d.err = none) (lines : List Bytes) (id f) :
    Decoder.LeadsOn { d with lines } (d.readFrame lines id f) := by
  induction lines generalizing id f with
  | nil =>
    simp [Decoder.readFrame, Decoder.fail, Decoder.LeadsOn, Decoder.terminal, hd, Sse.terminal]
  | cons line rest ih =>
    rcases d.readFrame_cons line id f with ⟨e, hr, h⟩ | ⟨hr, ⟨-, -, h⟩ | ⟨id', f', h, -⟩⟩ <;> rw [h]
    · simp [Decoder.fail, Decoder.LeadsOn, Decoder.terminal, hd, terminal_of_some hr]
    · simp [Decoder.LeadsOn, Decoder.terminal, hd, terminal_of_none hr]
    · exact (ih id' f').tail hr

theorem Decoder.nextFrame_leadsOn (d : Decoder) : d.LeadsOn d.nextFrame := by
  rw [Decoder.nextFrame]
  split
  · next e he => simp [Decoder.LeadsOn, Decoder.terminal, he]
  · next he => exact d.readFrame_leadsOn he d.lines d.id Fields.empty

theorem Decoder.nextLoop_leadsOn (fuel : ℕ) (d : Decoder) (hf : d.lines.length < fuel) :
    ∃ r, d.nextLoop fuel = some r ∧ d.LeadsOn r := by
  induction fuel generalizing d with
  | zero => omega
  | succ fuel ih =>
    have h := d.nextFrame_leadsOn
    rw [Decoder.nextLoop]
    generalize d.nextFrame = r at h
    obtain ⟨answer, d'⟩ := r
    cases answer with
    | error e => exact ⟨_, rfl, h⟩
    | ok frame =>
      obtain ⟨ht, hlt⟩ := h
      dsimp only
      split
      · -- a control frame: the loop goes on from `d'`
        obtain ⟨⟨answer, d''⟩, he, hl⟩ := ih d' (by omega)
        refine ⟨_, he, ?_⟩
        cases answer with
        | error e => exact Eq.trans hl ht
        | ok frame => exact ⟨hl.1.trans ht, Nat.lt_trans hl.2 hlt⟩
      · exact ⟨_, rfl, ht, hlt⟩

theorem drain_terminal {call : Decoder → Option (Except DecodeError Frame × Decoder)}
    (hcall : ∀ d, ∃ r, call d = some r ∧ d.LeadsOn r) (fuel : ℕ) (d : Decoder)
    (hf : d.lines.length < fuel) : ∃ frames, drain call fuel d = some (frames, d.terminal) := by
  induction fuel generalizing d with
  | zero => omega
  | succ fuel ih =>
    obtain ⟨⟨answer, d'⟩, he, hl⟩ := hcall d
    rw [drain, he]
    cases answer with
    | error e => exact ⟨[], congrArg (fun e => some ([], e)) hl⟩
    | ok frame =>
      obtain ⟨ht, hlt⟩ := hl
      obtain ⟨frames, hr⟩ := ih d' (by omega)
      refine ⟨frame :: frames, ?_⟩
      simp only [Option.bind_eq_bind, Option.bind_some, hr, ht]

theorem Decoder.frames_terminal (d : Decoder) : ∃ frames, d.frames = some (frames, d.terminal) :=
  drain_terminal (fun d => ⟨_, rfl, d.nextFrame_leadsOn⟩) _ d (Nat.lt_succ_self _)

theorem Decoder.events_terminal (d : Decoder) : ∃ frames, d.events = some (frames, d.terminal) :=
  drain_terminal (fun d => d.nextLoop_leadsOn _ (Nat.lt_succ_self _)) _ d (Nat.lt_succ_self _)

/-! ## The event that is too large -/

/-- A line goes to the front of the event it belongs to. -/
def pushLine (l : WireLine) : List (List WireLine) → List (List WireLine)
  | [] => [[l]]
  | e :: es => (l :: e) :: es

/-- The events of a stream: each ends with a blank line, the last one perhaps with the stream. -/
def wireEvents : List WireLine → List (List WireLine)
  | [] => []
  | l :: ls => if l.content = [] then [l] :: wireEvents ls else pushLine l (wireEvents ls)

def wireBytes (e : List WireLine) : ℕ := (e.map WireLine.size).sum

@[simp] theorem wireBytes_cons (l : WireLine) (e : List WireLine) :
    wireBytes (l :: e) = l.size + wireBytes e := sum_cons

@[simp] theorem wireBytes_nil : wireBytes [] = 0 := rfl

theorem wireBytes_wireLines (stream : Bytes) : wireBytes (wireLines stream) = stream.length := by
  have hpush : ∀ b ls, wireBytes (pushByte b ls) = wireBytes ls + 1 := by
    intro b ls
    cases ls with
    | nil => rfl
    | cons l ls => simp only [pushByte, wireBytes_cons]; omega
  fun_induction wireLines stream with
  | case1 => rfl
  | case2 bs ih => rw [wireBytes_cons, ih, length_cons, Nat.add_comm]
  | case3 => rfl
  | case4 _ cs ih | case5 _ c cs _ ih => simp only [wireBytes_cons, ih, length_cons]; omega
  | case6 b bs _ _ ih => rw [hpush, ih, length_cons]

theorem flatten_wireEvents (ls : List WireLine) : (wireEvents ls).flatten = ls := by
  induction ls with
  | nil => rfl
  | cons l ls ih =>
    rw [wireEvents]
    split
    · rw [flatten_cons, ih, singleton_append]
    · cases he : wireEvents ls with
      | nil | cons e es => rw [he] at ih; simp [pushLine, ← ih]

section Refused

variable (onComment : Option (Bytes → Option String)) (maxEventBytes : ℕ)

/-- The decoder reads past an event, of which `size` bytes went before. -/
def Passes (size : ℕ) (e : List WireLine) : Prop :=
  size + wireBytes e ≤ maxEventBytes ∧ ∀ l ∈ e, refusal onComment l.content = none

/-- An event goes over the limit, and the decoder stops at none of its lines that end within
it. -/
def Overruns (size : ℕ) (e : List WireLine) : Prop :=
  maxEventBytes < size + wireBytes e ∧
    ∀ a l b, e = a ++ l :: b → size + wireBytes (a ++ [l]) ≤ maxEventBytes →
      refusal onComment l.content = none

/-- The first event that the decoder does not read past goes over the limit. -/
def RefusedFrom : ℕ → List (List WireLine) → Prop
  | _, [] => False
  | size, e :: es => Overruns onComment maxEventBytes size e ∨
    Passes onComment maxEventBytes size e ∧ RefusedFrom 0 es

variable {onComment maxEventBytes} {e : List WireLine} {l : WireLine} {size : ℕ}

theorem passes_cons :
    Passes onComment maxEventBytes size (l :: e) ↔
      refusal onComment l.content = none ∧ Passes onComment maxEventBytes (size + l.size) e := by
  simp only [Passes, wireBytes_cons, forall_mem_cons, Nat.add_assoc]
  tauto

theorem overruns_of_lt (h : maxEventBytes < size + l.size) :
    Overruns onComment maxEventBytes size (l :: e) := by
  refine ⟨by rw [wireBytes_cons]; omega, ?_⟩
  intro a l' b he hle
  -- every line ends after the first one
  cases a with
  | nil | cons l'' a =>
    obtain ⟨rfl, -⟩ := cons_eq_cons.mp he
    simp at hle
    omega

theorem overruns_cons (h : size + l.size ≤ maxEventBytes) :
    Overruns onComment maxEventBytes size (l :: e) ↔
      refusal onComment l.content = none ∧ Overruns onComment maxEventBytes (size + l.size) e := by
  constructor
  · rintro ⟨hlt, hall⟩
    refine ⟨hall [] l e rfl (by simpa using h), ?_, ?_⟩
    · rwa [wireBytes_cons, ← Nat.add_assoc] at hlt
    · intro a l' b he hle
      refine hall (l :: a) l' b (by rw [he]; rfl) ?_
      rwa [cons_append, wireBytes_cons, ← Nat.add_assoc]
  · rintro ⟨hl, hlt, hall⟩
    refine ⟨by rwa [wireBytes_cons, ← Nat.add_assoc], ?_⟩
    intro a l' b he hle
    cases a with
    | nil =>
      obtain ⟨rfl, -⟩ := cons_eq_cons.mp he
      exact hl
    | cons l'' a =>
      obtain ⟨rfl, rfl⟩ := cons_eq_cons.mp he
      refine hall a l' b rfl ?_
      rwa [cons_append, wireBytes_cons, ← Nat.add_assoc] at hle

theorem not_overruns_nil (h : size ≤ maxEventBytes) :
    ¬ Overruns onComment maxEventBytes size [] := by
  rintro ⟨hlt, -⟩
  rw [wireBytes_nil] at hlt
  omega

theorem passes_nil (h : size ≤ maxEventBytes) :
    Passes onComment maxEventBytes size [] := ⟨h, by simp⟩

variable {es : List (List WireLine)}

theorem refusedFrom_pushLine (h : size + l.size ≤ maxEventBytes) :
    RefusedFrom onComment maxEventBytes size (pushLine l es) ↔
      refusal onComment l.content = none ∧
        RefusedFrom onComment maxEventBytes (size + l.size) es := by
  cases es with
  | nil => simp [pushLine, RefusedFrom, overruns_cons h, not_overruns_nil h]
  | cons e es =>
    simp only [pushLine, RefusedFrom, overruns_cons h, passes_cons]
    tauto

theorem refusedFrom_blank (h : size + l.size ≤ maxEventBytes) :
    RefusedFrom onComment maxEventBytes size ([l] :: es) ↔
      refusal onComment l.content = none ∧ RefusedFrom onComment maxEventBytes 0 es := by
  simp [RefusedFrom, overruns_cons h, not_overruns_nil h, passes_cons, passes_nil h]

theorem refusedFrom_of_lt {ls : List WireLine} (h : maxEventBytes < size + l.size) :
    RefusedFrom onComment maxEventBytes size (wireEvents (l :: ls)) := by
  rw [wireEvents]
  split
  · exact .inl (overruns_of_lt h)
  · cases wireEvents ls with
    | nil | cons e es => exact .inl (overruns_of_lt h)

theorem refusal_ne_eventTooLarge {line : Bytes} {e : DecodeError}
    (h : refusal onComment line = some e) : e ≠ .eventTooLarge := by
  unfold refusal at h
  split_ifs at h
  · cases h; simp
  · obtain ⟨detail, -, rfl⟩ := Option.map_eq_some_iff.mp h
    simp

/-- The lines that fit end with `eventTooLarge` exactly when the first event the decoder does not
read past goes over the limit. -/
theorem terminal_fitting_iff (ls : List WireLine) (size) (hsize : size ≤ maxEventBytes) :
    (terminal onComment (fitting maxEventBytes size ls).2 (fitting maxEventBytes size ls).1 =
      .eventTooLarge ↔ RefusedFrom onComment maxEventBytes size (wireEvents ls)) := by
  induction ls generalizing size with
  | nil => simp [fitting, terminal, wireEvents, RefusedFrom]
  | cons l ls ih =>
    rcases Nat.lt_or_ge (maxEventBytes - size) l.size with hlt | hge
    · have h : maxEventBytes < size + l.size := by omega
      rw [fitting_overrun hlt]
      exact iff_of_true rfl (refusedFrom_of_lt h)
    · have h : size + l.size ≤ maxEventBytes := by omega
      rw [fitting_fits hge, wireEvents]
      cases hr : refusal onComment l.content with
      | some e =>
        rw [terminal_of_some hr]
        refine iff_of_false (refusal_ne_eventTooLarge hr) ?_
        split
        · simp [refusedFrom_blank h, hr]
        · simp [refusedFrom_pushLine h, hr]
      | none =>
        rw [terminal_of_none hr]
        split
        · rw [ih 0 (Nat.zero_le _), refusedFrom_blank h]
          exact (and_iff_right hr).symm
        · rw [ih _ h, refusedFrom_pushLine h]
          exact (and_iff_right hr).symm

theorem refusedFrom_iff :
    RefusedFrom onComment maxEventBytes 0 es ↔
      ∃ before e after, es = before ++ e :: after ∧
        (∀ p ∈ before, Passes onComment maxEventBytes 0 p) ∧
        Overruns onComment maxEventBytes 0 e := by
  induction es with
  | nil => simp [RefusedFrom]
  | cons e es ih =>
    rw [RefusedFrom, ih]
    constructor
    · rintro (h | ⟨hp, before, e', after, rfl, hb, ho⟩)
      · exact ⟨[], e, es, rfl, by simp, h⟩
      · exact ⟨e :: before, e', after, rfl, forall_mem_cons.mpr ⟨hp, hb⟩, ho⟩
    · rintro ⟨before, e', after, he, hb, ho⟩
      cases before with
      | nil =>
        obtain ⟨rfl, -⟩ := cons_eq_cons.mp he
        exact .inl ho
      | cons p before =>
        obtain ⟨rfl, rfl⟩ := cons_eq_cons.mp he
        obtain ⟨hp, hb⟩ := forall_mem_cons.mp hb
        exact .inr ⟨hp, before, e', after, rfl, hb, ho⟩

end Refused

/-- The events of a stream on the wire, without a leading byte order mark. -/
def streamEvents (stream : Bytes) : List (List WireLine) :=
  wireEvents (wireLines (stripBom stream))

/-- The decoder reads past the first events of the stream and comes to one that goes over the
limit. -/
def MeetsTooLarge (onComment : Option (Bytes → Option String)) (maxEventBytes : ℕ)
    (stream : Bytes) : Prop :=
  ∃ before e after, streamEvents stream = before ++ e :: after ∧
    (∀ p ∈ before, Passes onComment maxEventBytes 0 p) ∧ Overruns onComment maxEventBytes 0 e

/-! ## Reads do not matter -/

variable (onComment : Option (Bytes → Option String))

/-- The decoder depends on the bytes, not on how they are read. -/
theorem newDecoder_reads (maxEventBytes : ℤ)
    {reads reads' : List Bytes} (h : reads.flatten = reads'.flatten) :
    newDecoder onComment reads maxEventBytes = newDecoder onComment reads' maxEventBytes := by
  unfold newDecoder
  rw [scanLines_eq, scanLines_eq, h]

/-- Decoding ends with an event too large exactly when the stream comes to one. -/
theorem newDecoder_terminal_iff {maxEventBytes : ℤ} (h : 1 ≤ maxEventBytes) (reads : List Bytes) :
    (newDecoder onComment reads maxEventBytes).terminal = .eventTooLarge ↔
      MeetsTooLarge onComment maxEventBytes.toNat reads.flatten := by
  rw [newDecoder, if_neg (by omega), scanLines_eq]
  exact (terminal_fitting_iff _ 0 (Nat.zero_le _)).trans refusedFrom_iff

/-- **Decoding does not depend on chunking.**  However a stream is cut into reads, the decoder
returns the same frames and the same error after them, one call of `NextFrame` or of `Next` at a
time; and that error is `eventTooLarge` exactly when the decoder comes to an event whose own bytes
exceed the limit and does not stop at a line of it that ends within the limit. -/
theorem decode_independent_of_reads (onComment : Option (Bytes → Option String))
    (maxEventBytes : ℤ) (reads reads' : List Bytes) (h : reads.flatten = reads'.flatten) :
    (∃ frames e, (newDecoder onComment reads maxEventBytes).frames = some (frames, e) ∧
      (newDecoder onComment reads' maxEventBytes).frames = some (frames, e) ∧
      (1 ≤ maxEventBytes →
        (e = .eventTooLarge ↔ MeetsTooLarge onComment maxEventBytes.toNat reads.flatten))) ∧
    (∃ events e, (newDecoder onComment reads maxEventBytes).events = some (events, e) ∧
      (newDecoder onComment reads' maxEventBytes).events = some (events, e) ∧
      (1 ≤ maxEventBytes →
        (e = .eventTooLarge ↔ MeetsTooLarge onComment maxEventBytes.toNat reads.flatten))) := by
  rw [← newDecoder_reads onComment maxEventBytes h]
  obtain ⟨frames, hf⟩ := (newDecoder onComment reads maxEventBytes).frames_terminal
  obtain ⟨events, he⟩ := (newDecoder onComment reads maxEventBytes).events_terminal
  exact ⟨⟨frames, _, hf, hf, fun hmax => newDecoder_terminal_iff onComment hmax reads⟩,
    ⟨events, _, he, he, fun hmax => newDecoder_terminal_iff onComment hmax reads⟩⟩

/-- `data: a` and a blank line, both ended by CRLF, behind a byte order mark. -/
def sampleStream : Bytes := bom ++ ascii "data: a" ++ [cr, lf, cr, lf]

/-- The sample in one read, and one byte at a time. -/
theorem decode_independent_of_reads_sample :
    (∃ frames e, (newDecoder none [sampleStream] 11).frames = some (frames, e) ∧
      (newDecoder none (sampleStream.map fun b => [b]) 11).frames = some (frames, e) ∧
      ((1 : ℤ) ≤ 11 → (e = .eventTooLarge ↔ MeetsTooLarge none (11 : ℤ).toNat
        [sampleStream].flatten))) ∧
    (∃ events e, (newDecoder none [sampleStream] 11).events = some (events, e) ∧
      (newDecoder none (sampleStream.map fun b => [b]) 11).events = some (events, e) ∧
      ((1 : ℤ) ≤ 11 → (e = .eventTooLarge ↔ MeetsTooLarge none (11 : ℤ).toNat
        [sampleStream].flatten))) :=
  decode_independent_of_reads none 11 [sampleStream] (sampleStream.map fun b => [b])
    (by decide)

/-- A line that is not UTF-8 in front of one that takes the event over the limit of four bytes. -/
def invalidStream : Bytes := [0xFF, lf] ++ ascii "aaaa" ++ [lf, lf]

/-- The event of `invalidStream` exceeds the limit, and is refused for its first line. -/
theorem invalidStream_not_tooLarge :
    (∃ e, streamEvents invalidStream = [e] ∧ 4 < wireBytes e) ∧
      (newDecoder none [invalidStream] 4).frames = some ([], .invalidUtf8) := by
  refine ⟨⟨_, rfl, ?_⟩, ?_⟩ <;> decide

end Olp.Sse
