import Olp.Sse.Splice

/-!
# Raw frames are the stream

The run of a raw decoder: the wire bytes of its frames are the stream, their data is that of the
events, and every frame with data is made of the lines of an event (`RawFrame.Made`), so that its
data can be replaced in place.
-/

namespace Olp.Sse

open Olp.Scanner List

/-! ## The run of a raw decoder -/

/-- The data of the events of lines, when the values `vs` were read of the first before. -/
def eventData : List Bytes → List Bytes → List Bytes
  | _, [] => []
  | vs, line :: rest =>
    if line = [] then
      if vs = [] then eventData [] rest else joined vs :: eventData [] rest
    else eventData (vs ++ dataValues line) rest

theorem framesOf_data (ls : List Bytes) (f : Fields) (hv : ∀ l ∈ ls, validString l = true) :
    ((framesOf none f ls).filter fun frame => !frame.control).map Frame.data =
      eventData f.data ls := by
  induction ls generalizing f with
  | nil => rfl
  | cons l ls ih =>
    obtain ⟨hl, hv⟩ := forall_mem_cons.mp hv
    have hr : (refusal none l).isSome = false := by rw [refusal_none_eq, hl]; rfl
    rw [framesOf, eventData, hr]
    by_cases hb : l = []
    · have hempty := ih .empty hv
      simp only [hb, if_true, Bool.false_eq_true, if_false]
      by_cases hd : f.data = []
      · cases hdisp : f.dispatches <;>
          simpa [hdisp, hd, Fields.frame, Fields.empty] using hempty
      · have hdisp : f.dispatches = true := by simp [Fields.dispatches, hd]
        simpa [hdisp, hd, Fields.frame, Fields.empty, joined] using hempty
    · simp only [hb, Bool.false_eq_true, if_false]
      rw [ih _ hv]
      exact congrArg (eventData · ls) (Fields.data_foldl_line f [l] |>.trans (by simp))

def RawDecoder.stream (d : RawDecoder) : Bytes := d.buf ++ d.reads.flatten

/-- The lines that it will be handed, and the error after them. -/
def RawDecoder.whole (d : RawDecoder) : List Bytes × Option DecodeError :=
  wholeLines d.limit d.splitter d.stream

/-- Between two frames nothing is kept. -/
structure RawDecoder.Fresh (d : RawDecoder) : Prop where
  wire : d.wire = []
  data : d.data = []
  ranges : d.ranges = []

/-- Within an event, of which the lines `ls` were read. -/
structure RawDecoder.Within (d : RawDecoder) (ls : List Bytes) : Prop where
  first : d.splitter.first = false
  valid : ∀ l ∈ ls, l ≠ [] ∧ validString l = true
  data : d.data = joined (values ls)
  some_value : values ls ≠ []
  leads : ∃ k, Leads (fun rest => wireContents (d.wire ++ rest)) (List.replicate k [] ++ ls)
    d.splitter d.stream
  slots : ∀ r ∈ d.ranges, Slot d.wire ls d.splitter d.stream r
  covers : ∀ a v b, values ls = a ++ v :: b → ∃ r ∈ d.ranges,
    r.start = (front a).length ∧ r.stop = (front a).length + v.length

variable {d : RawDecoder} {ls : List Bytes}

theorem RawDecoder.Within.ranges_ne (h : d.Within ls) : d.ranges ≠ [] := by
  intro hr
  obtain ⟨v, vs, hv⟩ := exists_cons_of_ne_nil h.some_value
  obtain ⟨r, hmem, -⟩ := h.covers [] v vs hv
  rw [hr] at hmem
  cases hmem

/-- The states of a raw decoder: between two frames, within an event, or at the end of the
stream. -/
inductive RawDecoder.Ready (d : RawDecoder) : List Bytes → Prop
  | fresh : d.splitter.Sound d.limit → (d.splitter.skipLF = true → d.splitter.first = false) →
      d.Fresh → d.Ready []
  | within {ls : List Bytes} : d.splitter.Sound d.limit → d.Within ls → d.Ready ls
  | finished {ls : List Bytes} : d.stream = [] → d.Ready ls

/-- What a call of `Next` may answer, when the values `vs` were read since the last frame. -/
def RawDecoder.Answers (d : RawDecoder) (vs : List Bytes) :
    Except DecodeError (RawFrame × RawDecoder) → Prop
  | .error e => e = .eof → d.wire = [] ∧ d.stream = [] ∧ d.whole.1 = []
  | .ok (frame, d') => d'.Ready [] ∧ d'.Fresh ∧ d'.limit = d.limit ∧ frame.bytes ≠ [] ∧
    frame.bytes ++ d'.stream = d.wire ++ d.stream ∧
    (frame.hasData = true → ∃ ls, frame.Made ls) ∧
    ((∀ l ∈ d'.whole.1, validString l = true) → ∀ l ∈ d.whole.1, validString l = true) ∧
    eventData vs d.whole.1 =
      (if frame.hasData then [frame.data] else []) ++ eventData [] d'.whole.1

variable {vs : List Bytes} {c line term after : Bytes} {st : Splitter} {d₁ : RawDecoder}

theorem skipPending_nil (st : Splitter) : (skipPending st []).1 = 0 := by
  unfold skipPending
  split_ifs <;> simp_all

theorem lines_nil (limit : ℕ) (st : Splitter) : ∃ st', lines limit st [] true = .more 0 st' := by
  rw [lines, if_neg (by simp)]
  have hp := skipPending_nil st
  generalize skipPending st [] = p at hp
  obtain ⟨n, st'⟩ := p
  obtain rfl : n = 0 := hp
  dsimp only
  split
  · rw [if_neg (by simp)]
    exact ⟨_, rfl⟩
  · exact ⟨_, rfl⟩

theorem wholeLines_nil (limit : ℕ) (st : Splitter) : wholeLines limit st [] = ([], none) := by
  have hnil : stripBom [] = [] := by decide
  simp [wholeLines, hnil, wireLines, fitting]

theorem fitting_error {limit : ℕ} (ls : List WireLine) {size : ℕ} {e : DecodeError}
    (h : (fitting limit size ls).2 = some e) : e = .eventTooLarge := by
  induction ls generalizing size e with
  | nil => cases h
  | cons l ls ih =>
    rw [fitting] at h
    split at h
    · cases h; rfl
    · exact ih h

theorem Ends.isTerminator {t : Bytes} (h : Ends t st term after) :
    ∀ b ∈ term, isTerminator b = true := by
  cases h with
  | whole ht _ => rcases ht with rfl | rfl <;> exact all_eq_true.mp rfl
  | cr _ => exact all_eq_true.mp rfl
  | eof _ => simp

theorem Ends.append_ne_nil {t : Bytes} (h : Ends t st term after) : t ++ term ≠ [] := by
  cases h with
  | whole ht _ => rcases ht with rfl | rfl <;> simp
  | cr _ => simp
  | eof ht => simpa using ht

theorem Ends.over {t : Bytes} (h : Ends t st term after) (hterm : term = []) : after = [] := by
  cases h with
  | whole ht _ => rcases ht with rfl | rfl <;> cases hterm
  | cr _ => cases hterm
  | eof _ => rfl

theorem front_eq (h : vs ≠ []) : front vs = joined vs ++ [lf] := by
  rcases eq_nil_or_concat vs with rfl | ⟨a, v, rfl⟩
  · exact absurd rfl h
  · rw [concat_eq_append, joined_split]
    simp

theorem exists_snoc {a b : List Bytes} {v w : Bytes} (h : vs ++ [w] = a ++ v :: b) :
    (b = [] ∧ a = vs ∧ v = w) ∨ ∃ b', b = b' ++ [w] ∧ vs = a ++ v :: b' := by
  rcases eq_nil_or_concat b with rfl | ⟨b', x, rfl⟩
  · obtain ⟨ha, hv⟩ := append_inj' h rfl
    exact .inl ⟨rfl, ha.symm, (singleton_inj.mp hv).symm⟩
  · rw [concat_eq_append, ← cons_append, ← append_assoc] at h
    obtain ⟨hvs, hx⟩ := append_inj' h rfl
    rw [concat_eq_append, ← hx]
    exact .inr ⟨b', rfl, hvs⟩

/-- The decoder `d₁` is `d` after a valid line was read. -/
structure RawDecoder.Reads (d : RawDecoder) (c line term : Bytes) (d₁ : RawDecoder) : Prop where
  limit : d₁.limit = d.limit
  data : d₁.data = d.data
  ranges : d₁.ranges = d.ranges
  wire : d₁.wire = d.wire ++ c
  whole : d.whole.1 = line :: d₁.whole.1
  sound : d₁.splitter.Sound d₁.limit
  first : d₁.splitter.first = false
  cuts : Cuts d.splitter d.stream c line term d₁.splitter d₁.stream
  valid : validString line = true

namespace RawDecoder

theorem Reads.wire_ne_nil (h : d.Reads c line term d₁) : d₁.wire ≠ [] := by
  rw [h.wire, h.cuts.bytes]
  intro hnil
  obtain ⟨-, hnil⟩ := append_eq_nil_iff.mp hnil
  exact h.cuts.ends.append_ne_nil (append_eq_nil_iff.mp hnil).2

theorem Reads.stream (h : d.Reads c line term d₁) : d₁.wire ++ d₁.stream = d.wire ++ d.stream := by
  rw [h.wire, h.cuts.stream, append_assoc]

theorem Reads.forall_valid (h : d.Reads c line term d₁)
    (hv : ∀ l ∈ d₁.whole.1, validString l = true) : ∀ l ∈ d.whole.1, validString l = true := by
  rw [h.whole]
  exact forall_mem_cons.mpr ⟨h.valid, hv⟩

theorem Reads.answers {vs₁ : List Bytes} {r : Except DecodeError (RawFrame × RawDecoder)}
    (h : d.Reads c line term d₁)
    (hdata : eventData vs (line :: d₁.whole.1) = eventData vs₁ d₁.whole.1)
    (ha : d₁.Answers vs₁ r) : d.Answers vs r := by
  cases r with
  | error e => exact fun he => absurd (ha he).1 h.wire_ne_nil
  | ok r =>
    obtain ⟨hready, hfresh, hlim, hne, hbytes, hmade, hvalid, hev⟩ := ha
    exact ⟨hready, hfresh, hlim.trans h.limit, hne, hbytes.trans h.stream, hmade,
      fun hall => h.forall_valid (hvalid hall), by rw [h.whole, hdata, hev]⟩

theorem Within.step_slots (h : d.Within ls) (hr : d.Reads c line term d₁) (hterm : term ≠ []) :
    ∀ r ∈ d₁.ranges, Slot d₁.wire (ls ++ [line]) d₁.splitter d₁.stream r := by
  rw [hr.ranges, hr.wire]
  exact fun r hmem => (h.slots r hmem).step h.first hr.cuts hterm

theorem Within.step_valid (hv : ∀ l ∈ ls, l ≠ [] ∧ validString l = true)
    (hr : d.Reads c line term d₁) (hne : line ≠ []) :
    ∀ l ∈ ls ++ [line], l ≠ [] ∧ validString l = true :=
  forall_mem_append.mpr ⟨hv, forall_mem_singleton.mpr ⟨hne, hr.valid⟩⟩

theorem Within.other (h : d.Within ls) (hr : d.Reads c line term d₁) (hterm : term ≠ [])
    (hne : line ≠ []) (hn : dataValues line = []) : d₁.Within (ls ++ [line]) := by
  have hvalues : values (ls ++ [line]) = values ls := by simp [hn]
  obtain ⟨k, hk⟩ := h.leads
  refine ⟨hr.first, step_valid h.valid hr hne, ?_, ?_, ⟨k, ?_⟩, h.step_slots hr hterm, ?_⟩
  · rw [hr.data, hvalues, h.data]
  · rw [hvalues]
    exact h.some_value
  · rw [hr.wire, ← append_assoc]
    simpa only [append_assoc] using hk.step h.first hr.cuts hterm
  · rw [hr.ranges, hvalues]
    exact h.covers

/-- A data line that comes next. -/
theorem Reads.push {wire : Bytes} {k : ℕ} (h : d.Reads c line term d₁) (ha : Awaits wire ls k)
    (hw : d₁.wire = wire ++ (line ++ term)) (hd : d₁.data = joined (values ls))
    (hr : d₁.ranges = [] ↔ values ls = [])
    (hslots : ∀ r ∈ d₁.ranges, Slot d₁.wire (ls ++ [line]) d₁.splitter d₁.stream r)
    (hcovers : ∀ a v b, values ls = a ++ v :: b → ∃ r ∈ d₁.ranges,
      r.start = (front a).length ∧ r.stop = (front a).length + v.length)
    (hvalid : ∀ l ∈ ls, l ≠ [] ∧ validString l = true) (hterm : term ≠ []) (hne : line ≠ [])
    (hn : fieldName line = ascii "data") : (d₁.push line).Within (ls ++ [line]) := by
  obtain ⟨stem, hstem, hline⟩ := exists_stem hn
  have hdv : dataValues line = [fieldValue line] := if_pos hn
  have hvalues : values (ls ++ [line]) = values ls ++ [fieldValue line] := by simp [hdv]
  have hfront : (if d₁.ranges ≠ [] then d₁.data ++ [lf] else d₁.data) = front (values ls) := by
    by_cases hnil : values ls = []
    · rw [if_neg (by simp [hr.mpr hnil]), hd, hnil]
      rfl
    · rw [if_pos (fun h => hnil (hr.mp h)), hd, front_eq hnil]
  have hpv : Plain (fieldValue line) := by
    intro b hb
    exact h.cuts.plain b (by rw [hline]; exact mem_append_right _ hb)
  have hindex : (lastIndex line d₁.wire).getD 0 + line.length - (fieldValue line).length =
      wire.length + stem.length := by
    rw [hw, lastIndex_line h.cuts.plain hne h.cuts.ends.isTerminator, Option.getD_some]
    have := congrArg List.length hline
    rw [length_append] at this
    omega
  have hranges : (d₁.push line).ranges = d₁.ranges ++
      [⟨(front (values ls)).length, (front (values ls)).length + (fieldValue line).length,
        wire.length + stem.length⟩] := by
    simp only [RawDecoder.push, hfront, hindex]
  have hwire : d₁.wire = wire ++ (stem ++ (fieldValue line ++ term)) := by
    rw [hw]
    nth_rewrite 1 [hline]
    rw [append_assoc]
  refine ⟨h.first, Within.step_valid hvalid h hne, ?_, ?_, ⟨k, ?_⟩, ?_, ?_⟩
  · rw [hvalues, joined_split, back_nil, append_nil]
    simp only [RawDecoder.push, hfront]
  · rw [hvalues]
    simp
  · have hleads := ha.leads hstem hpv h.cuts.ends hterm
    rw [← hline] at hleads
    have hpush : (d₁.push line).wire = wire ++ (stem ++ (fieldValue line ++ term)) := hwire
    rw [hpush]
    simp only [append_assoc]
    exact hleads
  · rw [hranges]
    have hslot := ha.slot hstem (by rw [← hline]; exact hdv) hpv h.cuts.ends hterm
    rw [← hwire, ← hline] at hslot
    exact forall_mem_append.mpr ⟨hslots, forall_mem_singleton.mpr hslot⟩
  · intro a v b hab
    rw [hvalues] at hab
    rw [hranges]
    rcases exists_snoc hab with ⟨-, rfl, rfl⟩ | ⟨b', -, hvs⟩
    · exact ⟨_, mem_append_right _ (mem_singleton_self _), rfl, rfl⟩
    · obtain ⟨r, hmem, h₁, h₂⟩ := hcovers a v b' hvs
      exact ⟨r, mem_append_left _ hmem, h₁, h₂⟩

end RawDecoder

theorem eventData_line {rest : List Bytes} (h : line ≠ []) :
    eventData vs (line :: rest) = eventData (vs ++ dataValues line) rest := by
  rw [eventData, if_neg h]

namespace RawDecoder

/-- One line, of which the loop of `Next` goes on: the lines read before and this one. -/
theorem Ready.next (h : d.Ready ls) (hstream : d.stream ≠ []) (hr : d.Reads c line term d₁)
    (hne : line ≠ []) :
    (fieldName line ≠ ascii "data" → d.ranges ≠ [] → d₁.Ready (ls ++ [line])) ∧
      (fieldName line = ascii "data" → (d₁.push line).Ready (ls ++ [line])) := by
  by_cases hterm : term = []
  · -- the stream ends without a terminator
    have hover := hr.cuts.ends.over hterm
    exact ⟨fun _ _ => .finished hover, fun _ => .finished hover⟩
  · cases h with
    | finished ho => exact absurd ho hstream
    | fresh _ hinv hfresh =>
      refine ⟨fun _ hranges => absurd hfresh.ranges hranges, fun hn => .within hr.sound ?_⟩
      obtain ⟨k, ha⟩ := @awaits_start d.splitter d.stream hinv
      refine hr.push ha ?_ ?_ ?_ ?_ ?_ ?_ hterm hne hn
      · rw [hr.wire, hfresh.wire, hr.cuts.bytes, nil_append, nil_append]
      · rw [hr.data, hfresh.data]
        rfl
      · rw [hr.ranges, hfresh.ranges]
        simp
      · rw [hr.ranges, hfresh.ranges]
        simp
      · intro a v b hab
        exact absurd hab (by simp)
      · simp
    | within _ hwithin =>
      refine ⟨fun hn _ => .within hr.sound (hwithin.other hr hterm hne (if_neg hn)), fun hn => ?_⟩
      obtain ⟨k, hk⟩ := hwithin.leads
      obtain ⟨stem, hstem, hline⟩ := exists_stem hn
      have hhead : (line ++ (term ++ d₁.stream)).head? = some 100 := by
        rw [hline, append_assoc]
        exact hstem.head _
      refine .within hr.sound (hr.push (hk.awaits hwithin.first hr.cuts.next hhead) ?_ ?_ ?_
        (hwithin.step_slots hr hterm) ?_ hwithin.valid hterm hne hn)
      · rw [hr.wire, hr.cuts.bytes, append_assoc]
      · rw [hr.data, hwithin.data]
      · rw [hr.ranges]
        exact iff_of_false hwithin.ranges_ne hwithin.some_value
      · rw [hr.ranges]
        exact hwithin.covers

theorem Within.made (h : d.Within ls) (hr : d.Reads c [] term d₁) :
    (⟨d₁.wire, d₁.data, true, d₁.ranges⟩ : RawFrame).Made ls := by
  have hterm : term ≠ [] := hr.cuts.ends.append_ne_nil
  obtain ⟨k, hk⟩ := h.leads
  rw [hr.wire, hr.data, hr.ranges]
  refine ⟨h.valid, h.data, h.some_value, ⟨k, ?_⟩, ⟨d₁.splitter, d₁.stream, ?_⟩, h.covers⟩
  · have hended := (hk.step h.first hr.cuts hterm).ended [] (by simp)
    simpa [lineContents, wireLines] using hended
  · exact fun r hmem => (h.slots r hmem).step h.first hr.cuts hterm

theorem Ready.sound (h : d.Ready ls) (hs : d.stream ≠ []) : d.splitter.Sound d.limit := by
  cases h with
  | fresh hsound _ _ => exact hsound
  | within hsound _ => exact hsound
  | finished ho => exact absurd ho hs

theorem answers_done {s : Splitter × Bytes} (hs : s.2 = d.wire ++ d.stream)
    (hw : d.whole.1 = []) :
    d.Answers vs (if s.2 ≠ [] then
        .ok (RawDecoder.take { d with reads := [], buf := [], splitter := s.1, wire := s.2 } false)
      else .error .eof) := by
  split
  · next hne =>
      have hwhole : eventData [] (wholeLines d.limit s.1 []).1 = [] := by
        rw [wholeLines_nil]
        rfl
      refine ⟨.finished rfl, ⟨rfl, rfl, rfl⟩, rfl, hne, ?_, by simp, ?_, ?_⟩
      · exact (append_nil _).trans hs
      · rw [hw]
        simp
      · rw [hw]
        exact hwhole.symm
  · next hnil =>
      intro _
      have hnil : s.2 = [] := by simpa using hnil
      rw [hs] at hnil
      obtain ⟨h₁, h₂⟩ := append_eq_nil_iff.mp hnil
      exact ⟨h₁, h₂, hw⟩

theorem Reads.answers_take {b : Bool} (h : d.Reads c line term d₁)
    (hmade : b = true → ∃ ls, (⟨d₁.wire, d₁.data, b, d₁.ranges⟩ : RawFrame).Made ls)
    (hdata : eventData vs (line :: d₁.whole.1) =
      (if b then [d₁.data] else []) ++ eventData [] d₁.whole.1) :
    d.Answers vs (.ok (d₁.take b)) :=
  ⟨.fresh h.sound (fun _ => h.first) ⟨rfl, rfl, rfl⟩, ⟨rfl, rfl, rfl⟩, h.limit, h.wire_ne_nil,
    h.stream, hmade, h.forall_valid, by rw [h.whole]; exact hdata⟩

/-- **A call of `Next`.**  It returns, and answers as it should. -/
theorem nextLoop_answers (fuel : ℕ) (d : RawDecoder) (ls : List Bytes) (hready : d.Ready ls)
    (hfuel : d.stream.length < fuel) :
    ∃ r, d.nextLoop fuel = some r ∧ d.Answers (values ls) r := by
  induction fuel generalizing d ls with
  | zero => omega
  | succ fuel ih =>
    rw [RawDecoder.nextLoop]
    by_cases hnil : d.stream = []
    · -- nothing is left to read
      obtain ⟨st', hlines⟩ := lines_nil d.limit d.splitter
      have hsplit : rawLines d.limit (d.splitter, d.wire) [] true = .more 0 (st', d.wire) := by
        rw [rawLines, recorded, hlines]
        simp
      obtain ⟨hscan, hleft⟩ := scan_of_nil hsplit d.reads d.buf hnil
      rw [hscan, hleft]
      dsimp only
      have hwhole : d.whole.1 = [] := by rw [RawDecoder.whole, hnil, wholeLines_nil]
      have hans := @answers_done d (values ls) (st', d.wire) (by rw [hnil, append_nil]) hwhole
      refine ⟨_, ?_, hans⟩
      split <;> rfl
    · have hsound := hready.sound hnil
      have hagrees := scan_agrees (lines_coherent d.limit).recorded d.reads
        (d.splitter, d.wire) d.buf hsound
      have hconsumed := scan_consumed
        (fun s buf rest eof (hs : s.Sound d.limit) heof =>
          lines_consumes d.limit hs buf rest eof heof)
        (by
          intro s buf n s' hs hm
          have hc := lines_coherent d.limit s buf [] false hs (by simp)
          rw [hm] at hc
          exact hc.1)
        d.reads d.splitter d.wire d.buf hsound
      rw [← rawLines] at hagrees hconsumed
      generalize
        leftover (rawLines d.limit) d.reads (d.splitter, d.wire) d.buf = last at hconsumed ⊢
      generalize
        scan (rawLines d.limit) d.reads (d.splitter, d.wire) d.buf = result at hagrees hconsumed
      cases result with
      | failed e =>
        refine ⟨_, rfl, ?_⟩
        rintro rfl
        have hw : (wholeLines d.limit d.splitter d.stream).2 = some .eof :=
          congrArg Prod.snd hagrees
        cases fitting_error _ hw
      | done =>
        dsimp only
        have hans := @answers_done d (values ls) last hconsumed (congrArg Prod.fst hagrees)
        refine ⟨_, ?_, hans⟩
        split <;> rfl
      | token line s buf reads =>
        obtain ⟨c, hs2, hstream, hp, hf, term, after, hc, hsa, he⟩ := hconsumed
        obtain rfl : after = buf ++ reads.flatten := append_cancel_left (hsa.symm.trans hstream)
        obtain ⟨hinv, hlt, hwhole⟩ := hagrees
        dsimp only
        have hlen : (buf ++ reads.flatten).length < fuel :=
          Nat.lt_of_lt_of_le hlt (Nat.le_of_lt_succ hfuel)
        split
        · refine ⟨_, rfl, ?_⟩
          rintro ⟨⟩
        · next hv =>
            have hreads : d.Reads c line term { d with reads, buf, splitter := s.1, wire := s.2 } :=
              ⟨rfl, rfl, rfl, hs2, congrArg Prod.fst hwhole, hinv, hf, ⟨hc, hstream, hp, he⟩,
                by simpa using hv⟩
            split
            · next hb =>
                -- a blank line ends the frame
                subst hb
                refine ⟨_, rfl, hreads.answers_take ?_ ?_⟩
                · intro hr
                  cases hready with
                  | finished ho => exact absurd ho hnil
                  | fresh _ _ hfresh => simp [hfresh.ranges] at hr
                  | within _ hwithin =>
                    rw [hr]
                    exact ⟨ls, hwithin.made hreads⟩
                · cases hready with
                  | finished ho => exact absurd ho hnil
                  | fresh _ _ hfresh => simp [eventData, hfresh.ranges]
                  | within _ hwithin =>
                    simp [eventData, hwithin.ranges_ne, hwithin.some_value, hwithin.data]
            · next hb =>
                have hnext := hready.next hnil hreads hb
                have hdata : ∀ rest, eventData (values ls) (line :: rest) =
                    eventData (values (ls ++ [line])) rest := by
                  intro rest
                  rw [eventData_line hb, values_append, values_cons, values_nil, append_nil]
                split
                · next hn =>
                    split
                    · next hr =>
                        -- a line of another field outside of an event
                        have hls : values ls = [] := by
                          cases hready with
                          | finished ho => exact absurd ho hnil
                          | fresh _ _ _ => rfl
                          | within _ hwithin => exact absurd hr hwithin.ranges_ne
                        refine ⟨_, rfl, hreads.answers_take (by simp) ?_⟩
                        rw [eventData_line hb, hls, dataValues, if_neg hn]
                        rfl
                    · next hr =>
                        obtain ⟨r, her, hans⟩ := ih _ _ (hnext.1 hn hr) hlen
                        exact ⟨r, her, hreads.answers (hdata _) hans⟩
                · next hn =>
                    obtain ⟨r, her, hans⟩ := ih _ _ (hnext.2 (by simpa using hn)) hlen
                    exact ⟨r, her, hreads.answers (hdata _) hans⟩

end RawDecoder

/-- **All calls of `Next`.**  They reach an end.  If that is the end of the stream, the wire bytes
are the stream, the data is that of its events, and every frame with data is made of lines. -/
theorem RawDecoder.drain_spec (fuel : ℕ) (d : RawDecoder) (hready : d.Ready []) (hfresh : d.Fresh)
    (hfuel : d.stream.length < fuel) :
    ∃ frames e, d.drain fuel = some (frames, e) ∧ (e = .eof →
      (frames.map RawFrame.bytes).flatten = d.stream ∧ (∀ l ∈ d.whole.1, validString l = true) ∧
      (frames.filter RawFrame.hasData).map RawFrame.data = eventData [] d.whole.1 ∧
      ∀ frame ∈ frames, frame.hasData = true → ∃ ls, frame.Made ls) := by
  induction fuel generalizing d with
  | zero => omega
  | succ fuel ih =>
    obtain ⟨r, hr, hans⟩ := RawDecoder.nextLoop_answers (d.stream.length + 1) d [] hready
      (Nat.lt_succ_self _)
    have hnext : d.next = some r := hr
    simp only [RawDecoder.drain, hnext, Option.bind_eq_bind, Option.bind_some]
    cases r with
    | error e =>
      refine ⟨[], e, rfl, fun he => ?_⟩
      obtain ⟨-, hs, hw⟩ := hans he
      rw [hs, hw]
      simp [eventData]
    | ok r =>
      obtain ⟨frame, d'⟩ := r
      obtain ⟨hready', hfresh', -, hne, hbytes, hmade, hvalid, hdata⟩ := hans
      rw [hfresh.wire, nil_append] at hbytes
      have hlen := congrArg List.length hbytes
      rw [length_append] at hlen
      have hpos := length_pos_iff.mpr hne
      obtain ⟨frames, e, hd, hrest⟩ := ih d' hready' hfresh' (by omega)
      refine ⟨frame :: frames, e, by simp [hd], fun he => ?_⟩
      obtain ⟨hflat, hv, hfd, hall⟩ := hrest he
      refine ⟨?_, hvalid hv, ?_, forall_mem_cons.mpr ⟨hmade, hall⟩⟩
      · rw [map_cons, flatten_cons, hflat, hbytes]
      · rw [values_nil] at hdata
        rw [hdata, ← hfd]
        cases hh : frame.hasData <;> simp [hh]

theorem length_le_of_fitting {limit : ℕ} {ls : List WireLine} (h : Laid ls) (size) :
    ∀ l ∈ (fitting limit size ls).1, l.length ≤ limit := by
  induction ls generalizing size with
  | nil => simp [fitting]
  | cons l ls ih =>
    obtain ⟨-, hle, -, hls⟩ := h
    rw [fitting]
    split
    · simp
    · exact forall_mem_cons.mpr ⟨by omega, ih hls _⟩

theorem eventData_eq_nil (h : ∀ l ∈ ls, l.length ≤ 1) : eventData [] ls = [] := by
  induction ls with
  | nil => rfl
  | cons l ls ih =>
    obtain ⟨hl, hls⟩ := forall_mem_cons.mp h
    have hn : dataValues l = [] := by
      refine if_neg fun hn => ?_
      have hle := IsPrefix.length_le <| @ takeWhile_prefix _ l (· != colon)
      have hlen := congrArg List.length hn
      have hfour : (ascii "data").length = 4 := rfl
      rw [fieldName] at hlen
      omega
    rw [eventData, hn]
    simp [ih hls]

theorem whole_newRawDecoder (reads : List Bytes) (limit : ℤ) :
    (newRawDecoder reads limit).whole =
      fitting (max 1 limit).toNat 0 (wireLines (stripBom reads.flatten)) := by
  simp [RawDecoder.whole, newRawDecoder, RawDecoder.stream, wholeLines, skipPending, Splitter.start]

/-- The raw lines carry the data that the plain decoder reads. -/
theorem plain_data (reads : List Bytes) (limit : ℤ)
    (hv : ∀ l ∈ (newRawDecoder reads limit).whole.1, validString l = true) :
    ∃ plain e, (newDecoder none reads limit).frames = some (plain, e) ∧
      eventData [] (newRawDecoder reads limit).whole.1 =
        (plain.filter fun frame => !frame.control).map Frame.data := by
  rw [whole_newRawDecoder] at hv ⊢
  rcases lt_or_ge limit 1 with hlt | hge
  · refine ⟨[], .limitNotPositive, ?_, ?_⟩
    · rw [newDecoder, if_pos hlt]
      rfl
    · have hone : (max 1 limit).toNat = 1 := by omega
      rw [hone]
      exact eventData_eq_nil (length_le_of_fitting (laid_wireLines _) 0)
  · have hmax : max 1 limit = limit := by omega
    rw [hmax] at hv ⊢
    refine ⟨_, (newDecoder none reads limit).terminal, ?_, (framesOf_data _ .empty hv).symm⟩
    rw [newDecoder, if_neg (by omega), scanLines_eq, Decoder.frames_eq _ rfl]
    rfl

/-- **Raw frames pass the stream on.**  The raw decoder reaches the end of every stream.  When it
refuses no frame, the wire bytes of its frames are the stream, and the frames with data have the
data of the frames that the plain decoder returns.  Each such frame decodes to one with its data;
`ReplaceData` answers exactly for ranges of the data within one line, and what it returns decodes
to the frame with that range replaced, and nothing else changed, exactly when the new content of
the line is valid and is read back from behind what stands in front of it on the wire. -/
theorem raw_passthrough (reads : List Bytes) (limit : ℤ) :
    ∃ frames e, rawFrames reads limit = some (frames, e) ∧ (e = .eof →
      (frames.map RawFrame.bytes).flatten = reads.flatten ∧
      (∃ plain e', (newDecoder none reads limit).frames = some (plain, e') ∧
        (frames.filter RawFrame.hasData).map RawFrame.data =
          (plain.filter fun frame => !frame.control).map Frame.data) ∧
      ∀ frame ∈ frames, frame.hasData = true →
        ∃ f : Frame, Decodes frame.bytes f ∧ f.data = frame.data ∧ f.control = false ∧
          ∀ (start stop : ℤ) (replacement : Bytes), Plain replacement →
            ((∃ bytes, frame.replaceData start stop replacement = .ok bytes) ↔
              0 ≤ start ∧ start ≤ stop ∧ stop ≤ frame.data.length ∧
                lf ∉ (frame.data.take stop.toNat).drop start.toNat) ∧
            ∀ bytes, frame.replaceData start stop replacement = .ok bytes →
              ∃ part, frame.part? start stop = some part ∧
                (Decodes bytes { f with data := splice frame.data start stop replacement } ↔
                  validString (frame.contentAfter part start stop replacement) = true ∧
                    Holds (frame.bytes.take part.wireStart).getLast?
                      (frame.contentAfter part start stop replacement))) := by
  obtain ⟨frames, e, hd, hspec⟩ := RawDecoder.drain_spec (reads.flatten.length + 1)
    (newRawDecoder reads limit) (.fresh (Splitter.start_sound _) (fun _ => by contradiction)
      ⟨rfl, rfl, rfl⟩) ⟨rfl, rfl, rfl⟩ (Nat.lt_succ_self _)
  refine ⟨frames, e, hd, fun he => ?_⟩
  obtain ⟨hbytes, hvalid, hdata, hmade⟩ := hspec he
  refine ⟨hbytes, ?_, ?_⟩
  · obtain ⟨plain, e', hp, hev⟩ := plain_data reads limit hvalid
    exact ⟨plain, e', hp, hdata.trans hev⟩
  · intro frame hmem hhas
    obtain ⟨ls, hls⟩ := hmade frame hmem hhas
    obtain ⟨k, hk⟩ := hls.contents
    refine ⟨lineFrame ls, decodes_lines hk hls.valid hls.some_value, ?_,
      lineFrame_control hls.some_value, ?_⟩
    · rw [lineFrame_data, hls.data]
    · intro start stop replacement hp
      exact ⟨hls.replaceData_ok_iff start stop replacement,
        fun bytes hr => hls.replaceData_iff hp hr⟩

def closeStream : Bytes := ascii "data:x" ++ [lf, lf]

/-- The space at the front of a replacement is taken for the one behind the colon. -/
theorem leading_space_lost :
    ∃ frame bytes, rawFrames [closeStream] 100 = some ([frame], .eof) ∧ frame.hasData = true ∧
      frame.data = ascii "x" ∧ frame.replaceData 0 1 (ascii " y") = .ok bytes ∧
      splice frame.data 0 1 (ascii " y") = ascii " y" ∧
      (newDecoder none [bytes] 100).frames = some ([⟨none, ascii "y", none, none, false⟩], .eof) :=
  ⟨⟨closeStream, ascii "x", true, [⟨0, 1, 5⟩]⟩, ascii "data: y" ++ [lf, lf], by decide +kernel,
    rfl, rfl, by rfl, by decide +kernel, by decide +kernel⟩

end Olp.Sse
