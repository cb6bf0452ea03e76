import Olp.Sse.Fields

/-!
# Frames of a stream

What a decoder returns is put in terms of the events of the stream (`frames_eq_events`): the frames
are those of its first events, each made of the lines of one event.  A frame that was decoded is
therefore read back from what `Encode` writes, and takes no more bytes than its event did
(`encode_roundtrip`); the frames of a whole stream are, one after another (`stream_roundtrip`).
-/

namespace Olp.Sse

open List Option

/-! ## Frames of lines -/

/-- The frames of lines, up to the first at which the decoder stops. -/
def framesOf (onComment : Option (Bytes → Option String)) : Fields → List Bytes → List Frame
  | _, [] => []
  | f, line :: rest =>
    if (refusal onComment line).isSome then []
    else if line = [] then
      if f.dispatches then f.frame :: framesOf onComment .empty rest
      else framesOf onComment .empty rest
    else framesOf onComment (f.line line) rest

variable {f : Fields}

theorem Fields.eq_empty (h : f.dispatches = false) : f = Fields.empty := by
  obtain ⟨event, id, retry, data⟩ := f
  simp only [Fields.dispatches, Bool.or_eq_false_iff, Bool.not_eq_false', List.isEmpty_iff,
    isSome_eq_false_iff, isNone_iff_eq_none] at h
  obtain ⟨⟨⟨rfl, rfl⟩, rfl⟩, rfl⟩ := h
  rfl

/-- One call of `NextFrame`, against the frames of the lines. -/
def Decoder.Yields (d : Decoder) (f : Fields) (lines : List Bytes) :
    Except DecodeError Frame × Decoder → Prop
  | (.error _, _) => framesOf d.onComment f lines = []
  | (.ok frame, d') => d'.err = none ∧ d'.onComment = d.onComment ∧
    d'.lines.length < lines.length ∧
    framesOf d.onComment f lines = frame :: framesOf d.onComment .empty d'.lines

theorem Decoder.Yields.tail {d : Decoder} {f' : Fields} {line : Bytes} {rest : List Bytes}
    {r : Except DecodeError Frame × Decoder}
    (he : framesOf d.onComment f (line :: rest) = framesOf d.onComment f' rest)
    (h : d.Yields f' rest r) : d.Yields f (line :: rest) r := by
  obtain ⟨answer, d'⟩ := r
  cases answer with
  | error e => exact he.trans h
  | ok frame =>
    obtain ⟨herr, hc, hlt, hf⟩ := h
    exact ⟨herr, hc, Nat.lt_succ_of_lt hlt, he.trans hf⟩

theorem Decoder.readFrame_yields (d : Decoder) (hd : d.err = none) (lines : List Bytes) (id f) :
    d.Yields f lines (d.readFrame lines id f) := by
  induction lines generalizing id f with
  | nil => rfl
  | cons line rest ih =>
    rcases d.readFrame_cons line id f with ⟨e, hr, h⟩ |
      ⟨hr, ⟨rfl, hdisp, h⟩ | ⟨id', f', h, hf'⟩⟩ <;>
      rw [h]
    · simp [Decoder.fail, Decoder.Yields, framesOf, hr]
    · simp [Decoder.Yields, framesOf, hr, hdisp, hd]
    · refine (ih id' f').tail ?_
      rcases hf' with ⟨rfl, hdisp, rfl⟩ | ⟨hne, rfl⟩
      · obtain rfl := Fields.eq_empty hdisp
        simp [framesOf, hr, Fields.dispatches, Fields.empty]
      · simp [framesOf, hr, hne]

theorem Decoder.frames_eq (d : Decoder) (hd : d.err = none) :
    d.frames = some (framesOf d.onComment .empty d.lines, d.terminal) := by
  have hdrain : ∀ (fuel : ℕ) (d : Decoder), d.err = none → d.lines.length < fuel →
      ∃ e, drain (fun d => some d.nextFrame) fuel d =
        some (framesOf d.onComment .empty d.lines, e) := by
    intro fuel
    induction fuel with
    | zero => intro d _ h; omega
    | succ fuel ih =>
      intro d hd hf
      have hy := d.readFrame_yields hd d.lines d.id Fields.empty
      have hnext : d.nextFrame = d.readFrame d.lines d.id Fields.empty := by
        rw [Decoder.nextFrame, hd]
      simp only [drain, hnext, bind_eq_bind, bind_some]
      generalize d.readFrame d.lines d.id Fields.empty = r at hy
      obtain ⟨answer, d'⟩ := r
      cases answer with
      | error e => exact ⟨e, by rw [hy]⟩
      | ok frame =>
        obtain ⟨herr, hc, hlt, hfr⟩ := hy
        obtain ⟨e, he⟩ := ih d' herr (by omega)
        refine ⟨e, ?_⟩
        simp only [he, bind_some, hfr, hc]
  obtain ⟨e, he⟩ := hdrain (d.lines.length + 1) d hd (Nat.lt_succ_self _)
  obtain ⟨frames, hf⟩ := d.frames_terminal
  have heq := he.symm.trans hf
  simp only [some.injEq, Prod.mk.injEq] at heq
  rw [Decoder.frames, he, heq.2]

/-! ## Frames of events -/

/-- The fields after the lines of an event. -/
def Fields.lineAll (f : Fields) (e : List WireLine) : Fields :=
  e.foldl (fun f l => if l.content = [] then f else f.line l.content) f

/-- The frame of an event, which ends in a blank line, when `f` was read of it before. -/
def Fields.frameFrom (f : Fields) (e : List WireLine) : Option Frame :=
  if (∃ l ∈ e.getLast?, l.content = []) ∧ (f.lineAll e).dispatches then some (f.lineAll e).frame
  else none

def eventFrame (e : List WireLine) : Option Frame := Fields.empty.frameFrom e

/-- The frames of events, when `f` was read of the first of them before. -/
def Fields.framesFrom (f : Fields) : List (List WireLine) → List Frame
  | [] => []
  | e :: es => (f.frameFrom e).toList ++ es.filterMap eventFrame

section Events

variable {onComment : Option (Bytes → Option String)} {maxEventBytes : ℕ}

theorem Fields.frameFrom_blank (f : Fields) {l : WireLine} (hl : l.content = []) :
    f.frameFrom [l] = if f.dispatches then some f.frame else none := by
  simp [Fields.frameFrom, Fields.lineAll, hl]

theorem Fields.frameFrom_cons (f : Fields) {l : WireLine} (hl : l.content ≠ [])
    (e : List WireLine) : f.frameFrom (l :: e) = (f.line l.content).frameFrom e := by
  have hlast : (∃ l' ∈ (l :: e).getLast?, l'.content = []) ↔
      ∃ l' ∈ e.getLast?, l'.content = [] := by
    cases e with
    | nil => simp [hl]
    | cons l' e => rw [getLast?_cons_cons]
  have hall : f.lineAll (l :: e) = (f.line l.content).lineAll e := by
    simp [Fields.lineAll, hl]
  simp only [Fields.frameFrom, hlast, hall]

/-- The events whose lines the decoder reads to their end, when `size` bytes of the first went
before. -/
def AllPass (onComment : Option (Bytes → Option String)) (maxEventBytes : ℕ) :
    ℕ → List (List WireLine) → Prop
  | _, [] => True
  | size, e :: es => Passes onComment maxEventBytes size e ∧
    ∀ e' ∈ es, Passes onComment maxEventBytes 0 e'

theorem Fields.framesFrom_empty (es : List (List WireLine)) :
    Fields.empty.framesFrom es = es.filterMap eventFrame := by
  cases es with
  | nil => rfl
  | cons e es =>
    rw [Fields.framesFrom, filterMap_cons]
    cases h : eventFrame e <;> simp [eventFrame] at h <;> simp [h]

/-- The frames of the lines that fit are those of the first events. -/
theorem framesOf_fitting (ls : List WireLine) (size f) (hsize : size ≤ maxEventBytes) :
    ∃ before after, wireEvents ls = before ++ after ∧ AllPass onComment maxEventBytes size before ∧
      framesOf onComment f (fitting maxEventBytes size ls).1 = f.framesFrom before := by
  induction ls generalizing size f with
  | nil => exact ⟨[], [], rfl, trivial, rfl⟩
  | cons l ls ih =>
    rcases Nat.lt_or_ge (maxEventBytes - size) l.size with hlt | hge
    · rw [fitting_overrun hlt]
      exact ⟨[], _, rfl, trivial, rfl⟩
    · have hfit : size + l.size ≤ maxEventBytes := by omega
      rw [fitting_fits hge]
      cases hr : refusal onComment l.content with
      | some e => exact ⟨[], _, rfl, trivial, by simp [framesOf, hr, Fields.framesFrom]⟩
      | none =>
        by_cases hb : l.content = []
        · -- a blank line ends the event, and the next one starts afresh
          obtain ⟨before, after, he, hp, hf⟩ := ih 0 .empty (Nat.zero_le _)
          have hpass : ∀ e ∈ before, Passes onComment maxEventBytes 0 e := by
            cases before with
            | nil => simp
            | cons e es => exact forall_mem_cons.mpr hp
          refine ⟨[l] :: before, after, ?_, ⟨?_, hpass⟩, ?_⟩
          · rw [wireEvents, if_pos hb, he, cons_append]
          · exact passes_cons.mpr ⟨hr, passes_nil hfit⟩
          · rw [Fields.framesFrom, ← Fields.framesFrom_empty, ← hf, if_pos hb, framesOf, hr,
              f.frameFrom_blank hb, if_pos hb]
            cases f.dispatches <;> simp
        · obtain ⟨before, after, he, hp, hf⟩ := ih (size + l.size) (f.line l.content) hfit
          have hstep : framesOf onComment f (l.content ::
              (fitting maxEventBytes (size + l.size) ls).1) =
              (f.line l.content).framesFrom before := by
            rw [framesOf, hr, ← hf]
            simp [hb]
          rw [if_neg hb, hstep, wireEvents, if_neg hb, he]
          cases before with
          | nil => exact ⟨[], _, rfl, trivial, rfl⟩
          | cons e es =>
            refine ⟨(l :: e) :: es, after, rfl, ⟨passes_cons.mpr ⟨hr, hp.1⟩, hp.2⟩, ?_⟩
            rw [Fields.framesFrom, Fields.framesFrom, f.frameFrom_cons hb]

end Events

/-! ## Lines of a stream -/

/-- Lines as they are cut off a stream: all but the last have a terminator, and so has a blank
last one. -/
def Laid : List WireLine → Prop
  | [] => True
  | l :: ls => Plain l.content ∧ l.content.length ≤ l.size ∧
    (ls ≠ [] ∨ l.content = [] → l.content.length < l.size) ∧ Laid ls

theorem Laid.pushByte {ls : List WireLine} (h : Laid ls) {b : UInt8} (hb : isTerminator b = false) :
    Laid (pushByte b ls) := by
  cases ls with
  | nil => simp [Sse.pushByte, Laid, Plain, hb]
  | cons l ls =>
    obtain ⟨hp, hle, hlt, hls⟩ := h
    refine ⟨forall_mem_cons.mpr ⟨hb, hp⟩, Nat.succ_le_succ hle, ?_, hls⟩
    rintro (h | h)
    · exact Nat.succ_lt_succ (hlt (.inl h))
    · exact absurd h (by simp)

/-- The lines of any stream are laid out so. -/
theorem laid_wireLines (stream : Bytes) : Laid (wireLines stream) := by
  have hblank : ∀ n ls, 0 < n → Laid ls → Laid (⟨[], n⟩ :: ls) := by
    intro n ls hn hls
    exact ⟨by simp [Plain], Nat.zero_le _, fun _ => hn, hls⟩
  fun_induction wireLines stream with
  | case1 => trivial
  | case2 bs ih | case5 _ c cs _ ih => exact hblank _ _ Nat.one_pos ih
  | case3 => exact hblank _ _ Nat.one_pos trivial
  | case4 _ cs ih => exact hblank _ _ Nat.two_pos ih
  | case6 b bs hlf hcr ih => exact ih.pushByte (by simp [isTerminator, hlf, hcr])

theorem Laid.of_append {ls ls' : List WireLine} (h : Laid (ls ++ ls')) : Laid ls' := by
  induction ls with
  | nil => exact h
  | cons l ls ih => exact ih h.2.2.2

theorem Laid.plain {ls : List WireLine} (h : Laid ls) : ∀ l ∈ ls, Plain l.content := by
  induction ls with
  | nil => simp
  | cons l ls ih => exact forall_mem_cons.mpr ⟨h.1, ih h.2.2.2⟩

variable {e : List WireLine}

theorem Laid.terminated {ls : List WireLine} (h : Laid (e ++ ls))
    (hlast : ∃ l ∈ e.getLast?, l.content = []) : ∀ l ∈ e, l.content.length < l.size := by
  induction e with
  | nil => simp
  | cons l e ih =>
    obtain ⟨-, -, hlt, hls⟩ := h
    cases e with
    | nil =>
      obtain ⟨l', hl', hb⟩ := hlast
      obtain rfl : l = l' := by simpa using hl'
      simpa using hlt (.inr hb)
    | cons l' e =>
      refine forall_mem_cons.mpr ⟨hlt (.inl (by simp)), ih hls ?_⟩
      rwa [getLast?_cons_cons] at hlast

theorem Fields.Decoded.lineAll {e : List WireLine} (he : ∀ l ∈ e, Clean l.content) {f : Fields}
    (hf : f.Decoded) : (f.lineAll e).Decoded := by
  induction e generalizing f with
  | nil => exact hf
  | cons l e ih =>
    obtain ⟨hl, he⟩ := forall_mem_cons.mp he
    refine ih he ?_
    dsimp only
    split
    · exact hf
    · unfold Fields.line
      split
      · exact hf
      · exact hf.read hl

/-- The lines of an event take at least the bytes that their fields take when they are written. -/
theorem Fields.lineBytes_lineAll_le (he : ∀ l ∈ e, l.content.length < l.size) (f : Fields) :
    lineBytes (f.lineAll e).lines ≤ lineBytes f.lines + wireBytes e := by
  induction e generalizing f with
  | nil => exact le_rfl
  | cons l e ih =>
    obtain ⟨hl, he⟩ := forall_mem_cons.mp he
    refine (ih he _).trans ?_
    rw [wireBytes_cons]
    dsimp only
    split
    · omega
    · unfold Fields.line
      split
      · omega
      · have := f.lineBytes_read_le l.content
        omega

/-- Reading lines into fields never takes more bytes than the lines had. -/
theorem Fields.lineBytes_lineAll_lt (he : ∀ l ∈ e, l.content.length < l.size)
    (hlast : ∃ l ∈ e.getLast?, l.content = []) (f : Fields) :
    lineBytes (f.lineAll e).lines < lineBytes f.lines + wireBytes e := by
  obtain ⟨b, hb, hblank⟩ := hlast
  obtain ⟨body, rfl⟩ := getLast?_eq_some_iff.mp hb
  have hle := Fields.lineBytes_lineAll_le (fun l hl => he l (mem_append_left _ hl)) f
  have hlt := he b (by simp)
  have hall : f.lineAll (body ++ [b]) = f.lineAll body := by
    simp [Fields.lineAll, foldl_append, hblank]
  have hsum : wireBytes (body ++ [b]) = wireBytes body + b.size := by simp [wireBytes]
  rw [hall, hsum]
  omega

/-! ## The round trip -/

theorem stripBom_of_head {data : Bytes} (h : data.head? ≠ some 0xEF) : stripBom data = data := by
  refine if_neg ?_
  rintro ⟨t, rfl⟩
  exact h rfl

variable {ls : List Bytes}

theorem wireLines_flatMap_lf (h : ∀ l ∈ ls, Plain l) (rest : Bytes) :
    wireLines (ls.flatMap (· ++ [lf]) ++ rest) =
      ls.map (fun l => ⟨l, l.length + 1⟩) ++ wireLines rest := by
  induction ls with
  | nil => rfl
  | cons l ls ih =>
    obtain ⟨hl, hls⟩ := forall_mem_cons.mp h
    rw [flatMap_cons, append_assoc, append_assoc, singleton_append,
      wireLines_append hl (wireLines_lf _), ih hls, map_cons, cons_append]

theorem fitting_of_le {maxEventBytes : ℕ} (h : ∀ l ∈ ls, l ≠ []) (size)
    (hs : size + (lineBytes ls + 1) ≤ maxEventBytes) (rest : List WireLine) :
    fitting maxEventBytes size (ls.map (fun l => ⟨l, l.length + 1⟩) ++ ⟨[], 1⟩ :: rest) =
      (ls ++ [] :: (fitting maxEventBytes 0 rest).1, (fitting maxEventBytes 0 rest).2) := by
  induction ls generalizing size with
  | nil =>
    rw [map_nil, nil_append, fitting_fits (by dsimp only; omega)]
    rfl
  | cons l ls ih =>
    obtain ⟨hl, hls⟩ := forall_mem_cons.mp h
    rw [lineBytes_cons] at hs
    rw [map_cons, cons_append, fitting_fits (by dsimp only; omega), if_neg hl,
      ih hls _ (by dsimp only; omega), cons_append]

variable {onComment : Option (Bytes → Option String)}

theorem refusal_of_isField {l : Bytes} (h : IsField l) : refusal onComment l = none := by
  obtain ⟨b, rest, rfl, hb, -⟩ := h.head
  simp [refusal, h.valid, hb]

theorem framesOf_fields (h : ∀ l ∈ ls, IsField l) (f : Fields)
    (hf : (ls.foldl Fields.read f).dispatches = true) (rest : List Bytes) :
    framesOf onComment f (ls ++ [] :: rest) =
      (ls.foldl Fields.read f).frame :: framesOf onComment .empty rest := by
  induction ls generalizing f with
  | nil =>
    have hr : refusal onComment [] = none := by simp [refusal, validString]
    rw [foldl_nil] at hf
    simp [framesOf, hr, hf]
  | cons l ls ih =>
    obtain ⟨hl, hls⟩ := forall_mem_cons.mp h
    have hr : refusal onComment l = none := refusal_of_isField hl
    obtain ⟨b, rest, rfl, hb, -⟩ := hl.head
    have hline : f.line (b :: rest) = f.read (b :: rest) := if_neg (by simpa using hb)
    rw [cons_append, framesOf, hr, hline, foldl_cons]
    simpa using ih hls _ hf

theorem terminal_fields (h : ∀ l ∈ ls, IsField l) (rest : List Bytes) :
    terminal onComment none (ls ++ [] :: rest) = terminal onComment none rest := by
  induction ls with
  | nil => exact terminal_of_none (by simp [refusal, validString])
  | cons l ls ih =>
    obtain ⟨hl, hls⟩ := forall_mem_cons.mp h
    rw [cons_append, terminal_of_none (refusal_of_isField hl), ih hls]

/-- A frame of decoded fields that keeps a limit when it is written. -/
def Frame.Writes (f : Frame) (limit : ℕ) : Prop :=
  ∃ g : Fields, g.frame = f ∧ g.Decoded ∧ g.dispatches = true ∧ lineBytes g.lines < limit

variable {fs : List Frame} {limit : ℕ}

/-- The lines of frames that are written one after another. -/
theorem fitting_encoded (h : ∀ f ∈ fs, f.Writes limit) {r : List Bytes × Option DecodeError}
    (hr : fitting limit 0 (wireLines (fs.flatMap Frame.encode)) = r) :
    framesOf onComment .empty r.1 = fs ∧ terminal onComment none r.1 = .eof ∧ r.2 = none := by
  subst hr
  induction fs with
  | nil => exact ⟨rfl, rfl, rfl⟩
  | cons f fs ih =>
    obtain ⟨⟨g, rfl, hg, hd, hlt⟩, hfs⟩ := forall_mem_cons.mp h
    have hfields := g.isField_lines hg
    have hne : ∀ l ∈ g.lines, l ≠ [] := by
      intro l hl
      obtain ⟨b, rest, rfl, -⟩ := (hfields l hl).head
      exact cons_ne_nil b rest
    rw [← g.foldl_read_lines hg] at hd
    obtain ⟨hframes, hend, hnone⟩ := ih hfs
    rw [flatMap_cons, encode_frame hg, append_assoc, singleton_append,
      wireLines_flatMap_lf fun l hl => (hfields l hl).plain, wireLines_lf,
      fitting_of_le hne 0 (by omega), framesOf_fields hfields _ hd, terminal_fields hfields,
      g.foldl_read_lines hg]
    exact ⟨congrArg _ hframes, hend, hnone⟩

/-- Frames of decoded fields are read back from what `Encode` writes, under every limit that the
bytes of each keep. -/
theorem decode_encoded (h : ∀ f ∈ fs, f.Writes limit) (hpos : 0 < limit)
    (onComment : Option (Bytes → Option String)) {reads : List Bytes}
    (hr : reads.flatten = fs.flatMap Frame.encode) :
    (newDecoder onComment reads limit).frames = some (fs, .eof) := by
  have hbom : stripBom (fs.flatMap Frame.encode) = fs.flatMap Frame.encode := by
    apply stripBom_of_head
    cases fs with
    | nil => decide
    | cons f fs =>
      obtain ⟨⟨g, rfl, hg, -⟩, -⟩ := forall_mem_cons.mp h
      rw [flatMap_cons, encode_frame hg]
      cases hls : g.lines with
      | nil => simp [lf]
      | cons l ls =>
        obtain ⟨b, rest, rfl, -, hb⟩ := (g.isField_lines hg l (by simp [hls])).head
        simpa using hb
  obtain ⟨hframes, hend, hnone⟩ := @fitting_encoded onComment fs limit h _ rfl
  rw [newDecoder, if_neg (by omega), scanLines_eq, hr, hbom, Decoder.frames_eq _ rfl]
  simp only [getD_some, Decoder.terminal, getD_none, Int.toNat_natCast, hframes, hnone, hend]

/-- A frame that decoding can give is read back from its encoding. -/
theorem decode_encode (h : f.Decoded) (hd : f.dispatches = true)
    (onComment : Option (Bytes → Option String)) {limit : ℤ} (hl : f.frame.encode.length ≤ limit)
    {reads : List Bytes} (hr : reads.flatten = f.frame.encode) :
    (newDecoder onComment reads limit).frames = some ([f.frame], .eof) := by
  have hlen := length_encode_frame h
  lift limit to ℕ using by omega
  have hwrites : f.frame.Writes limit := ⟨f, rfl, h, hd, by omega⟩
  exact decode_encoded (by simpa) (by omega) onComment (by simpa)

/-- Everything `NextFrame` returns, in terms of the events of the stream: the frames of its first
events, whose bytes keep the limit and whose lines are not refused. -/
theorem frames_eq_events (onComment : Option (Bytes → Option String)) (maxEventBytes : ℤ)
    (reads : List Bytes) :
    ∃ before after, streamEvents reads.flatten = before ++ after ∧
      (∀ w ∈ before, Passes onComment maxEventBytes.toNat 0 w) ∧
      (newDecoder onComment reads maxEventBytes).frames =
        some (before.filterMap eventFrame,
          (newDecoder onComment reads maxEventBytes).terminal) := by
  rcases lt_or_ge maxEventBytes 1 with hmax | hmax
  · refine ⟨[], _, rfl, by simp, ?_⟩
    rw [newDecoder, if_pos hmax]
    rfl
  · obtain ⟨before, after, he, hp, hf⟩ := @framesOf_fitting onComment maxEventBytes.toNat
      (wireLines (stripBom reads.flatten)) 0 .empty (Nat.zero_le _)
    refine ⟨before, after, he, ?_, ?_⟩
    · cases before with
      | nil => simp
      | cons w ws => exact forall_mem_cons.mpr hp
    · rw [newDecoder, if_neg (by omega), scanLines_eq, Decoder.frames_eq _ rfl,
        ← Fields.framesFrom_empty, ← hf]
      rfl

/-- The lines of an event are as they were cut off the stream. -/
theorem laid_of_mem {stream : Bytes} {before after : List (List WireLine)} {w : List WireLine}
    (h : streamEvents stream = before ++ after) (hw : w ∈ before) : ∃ ws, Laid (w ++ ws) := by
  obtain ⟨before₁, before₂, rfl⟩ := append_of_mem hw
  have hall := laid_wireLines (stripBom stream)
  rw [← flatten_wireEvents (wireLines _)] at hall
  rw [streamEvents] at h
  rw [h, append_assoc, flatten_append, cons_append, flatten_cons] at hall
  exact ⟨_, hall.of_append⟩

/-- A frame that was dispatched can be written with the bytes of its event. -/
theorem writes_of_eventFrame {w ws : List WireLine} (hlaid : Laid (w ++ ws))
    (hpass : Passes onComment limit 0 w) {f : Frame} (h : eventFrame w = some f) :
    f.Writes (wireBytes w) := by
  obtain ⟨hle, hvalid⟩ := hpass
  unfold eventFrame Fields.frameFrom at h
  split at h
  · next hdisp =>
      cases h
      have hclean : ∀ l ∈ w, Clean l.content := by
        intro l hl
        refine ⟨hlaid.plain l (mem_append_left _ hl), ?_⟩
        have hr := hvalid l hl
        unfold refusal at hr
        split at hr
        · cases hr
        · next hv => simpa using hv
      have hcost := Fields.lineBytes_lineAll_lt (hlaid.terminated hdisp.1) hdisp.1 Fields.empty
      have hnil : lineBytes Fields.empty.lines = 0 := rfl
      exact ⟨_, rfl, Fields.decoded_empty.lineAll hclean, hdisp.2, by omega⟩
  · cases h

/-- **Frames survive re-encoding.**  The frames that `NextFrame` returns are those of the first
events of the stream.  Each takes no more bytes, when it is encoded, than its event did, and
decoding these bytes returns that frame alone, however they are read and under every limit they
keep, such as the one the event kept. -/
theorem encode_roundtrip (onComment : Option (Bytes → Option String)) (maxEventBytes : ℤ)
    (reads : List Bytes) (frames : List Frame) (e : DecodeError)
    (h : (newDecoder onComment reads maxEventBytes).frames = some (frames, e)) :
    ∃ before after, streamEvents reads.flatten = before ++ after ∧
      frames = before.filterMap eventFrame ∧
      ∀ w ∈ before, ∀ f, eventFrame w = some f →
        f.encode.length ≤ wireBytes w ∧ wireBytes w ≤ maxEventBytes ∧
        ∀ (onComment' : Option (Bytes → Option String)) (limit : ℤ) (reads' : List Bytes),
          f.encode.length ≤ limit → reads'.flatten = f.encode →
          (newDecoder onComment' reads' limit).frames = some ([f], .eof) := by
  obtain ⟨before, after, hev, hpass, hf⟩ := frames_eq_events onComment maxEventBytes reads
  rw [hf] at h
  simp only [some.injEq, Prod.mk.injEq] at h
  refine ⟨before, after, hev, h.1.symm, ?_⟩
  intro w hw f hwf
  obtain ⟨ws, hlaid⟩ := laid_of_mem hev hw
  obtain ⟨g, rfl, hdec, hdisp, hlt⟩ := writes_of_eventFrame hlaid (hpass w hw) hwf
  have hlen := length_encode_frame hdec
  have hle := (hpass w hw).1
  refine ⟨by omega, by omega, ?_⟩
  intro onComment' limit reads' hlimit hreads
  exact decode_encode hdec hdisp onComment' hlimit hreads

/-- **Streams survive re-encoding.**  When the frames that were read of a stream are written one
after another, these and no others are read back, however the bytes are read. -/
theorem stream_roundtrip (onComment onComment' : Option (Bytes → Option String))
    (maxEventBytes limit : ℕ) (hlimit : maxEventBytes ≤ limit) (hpos : 0 < limit)
    (reads reads' : List Bytes) (frames : List Frame) (e : DecodeError)
    (h : (newDecoder onComment reads maxEventBytes).frames = some (frames, e))
    (hreads : reads'.flatten = frames.flatMap Frame.encode) :
    (newDecoder onComment' reads' limit).frames = some (frames, .eof) := by
  obtain ⟨before, after, hev, hpass, hf⟩ := frames_eq_events onComment maxEventBytes reads
  rw [hf] at h
  cases h
  refine decode_encoded (fun f hf => ?_) hpos onComment' hreads
  obtain ⟨w, hw, hwf⟩ := mem_filterMap.mp hf
  obtain ⟨ws, hlaid⟩ := laid_of_mem hev hw
  obtain ⟨g, hg, hdec, hdisp, hlt⟩ := writes_of_eventFrame hlaid (hpass w hw) hwf
  have hle := (hpass w hw).1
  exact ⟨g, hg, hdec, hdisp, by omega⟩

/-- An event with an identifier of spaces, a time with leading zeros and two lines of data. -/
def twoLineStream : Bytes :=
  ascii "id:  " ++ [cr] ++ ascii "retry: 007" ++ [lf] ++ ascii "data" ++ [cr, lf] ++
    ascii "data:b" ++ [lf, lf]

theorem encode_roundtrip_twoLine :
    ∃ before after, streamEvents [twoLineStream].flatten = before ++ after ∧
      [(⟨none, lf :: ascii "b", some [space], some 7, false⟩ : Frame)] =
        before.filterMap eventFrame ∧
      ∀ w ∈ before, ∀ f, eventFrame w = some f →
        f.encode.length ≤ wireBytes w ∧ (wireBytes w : ℤ) ≤ 40 ∧
        ∀ (onComment' : Option (Bytes → Option String)) (limit : ℤ) (reads' : List Bytes),
          f.encode.length ≤ limit → reads'.flatten = f.encode →
          (newDecoder onComment' reads' limit).frames = some ([f], .eof) :=
  encode_roundtrip none 40 [twoLineStream] _ .eof (by decide +kernel)

/-- The event of two lines, and one that names its kind. -/
def twoFrames : List Frame :=
  [⟨none, lf :: ascii "b", some [space], some 7, false⟩,
    ⟨some (ascii "e"), ascii "c", none, none, false⟩]

theorem stream_roundtrip_twoFrames :
    (newDecoder none (twoFrames.map Frame.encode) 40).frames = some (twoFrames, .eof) :=
  stream_roundtrip none none 40 40 le_rfl (by decide)
    [twoLineStream, ascii "event:e" ++ [lf] ++ ascii "data:c" ++ [lf, lf]] _ _ .eof
    (by decide +kernel) rfl

end Olp.Sse
