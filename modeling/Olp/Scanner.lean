import Mathlib.Data.List.Basic

/-!
# Scanning a stream that arrives in reads

A scanner asks a *split function* for the next token of what it has buffered, and reads more
when there is none yet.  Where the reads fall is up to the reader, so a split function that keeps
state can see the same stream cut in many ways.

`Coherent split whole Inv` says that every answer of `split` on a buffered part of the stream
agrees with `whole`, the tokens of the stream read at once.  `tokens_eq_whole` then shows that the
scanner returns these tokens whatever the reads were.
-/

namespace Olp.Scanner

open List

variable {σ α τ ε : Type*}

/-- What a split function answers: an error, a request for more data, or a token; the latter two
with the number of elements it has consumed. -/
inductive Cut (σ τ ε : Type*)
  | fail (e : ε)
  | more (advance : ℕ) (s : σ)
  | token (advance : ℕ) (t : τ) (s : σ)

/-- What one call for a token ends with. -/
inductive Scanned (σ α τ ε : Type*)
  | failed (e : ε)
  | done
  | token (t : τ) (s : σ) (buf : List α) (reads : List (List α))

/-- One call for a token.  `reads` are the reads still to come, with the end of the stream reported
along with the last of them; a reader that reports the end on its own has an empty last read. -/
def scan (split : σ → List α → Bool → Cut σ τ ε) :
    List (List α) → σ → List α → Scanned σ α τ ε
  | [], s, buf =>
    match split s buf true with
    | .fail e => .failed e
    | .more _ _ => .done
    | .token n t s' => .token t s' (buf.drop n) []
  | c :: cs, s, buf =>
    if buf.isEmpty then scan split cs s c
    else
      match split s buf false with
      | .fail e => .failed e
      | .more n s' => scan split cs s' (buf.drop n ++ c)
      | .token n t s' => .token t s' (buf.drop n) (c :: cs)

/-- The tokens that successive calls return, and the error they end with, if any.  `none` when
`fuel` calls are not enough to reach the end. -/
def tokens (split : σ → List α → Bool → Cut σ τ ε) :
    ℕ → List (List α) → σ → List α → Option (List τ × Option ε)
  | 0, _, _, _ => none
  | fuel + 1, reads, s, buf =>
    match scan split reads s buf with
    | .failed e => some ([], some e)
    | .done => some ([], none)
    | .token t s' buf' reads' =>
      (tokens split fuel reads' s' buf').map fun r => (t :: r.1, r.2)

/-- One answer of a split function on `buf`, when `rest` of the stream is still to be read, agrees
with the tokens of the whole. -/
def Cut.Agrees (whole : σ → List α → List τ × Option ε) (Inv : σ → Prop)
    (s : σ) (buf rest : List α) (eof : Bool) : Cut σ τ ε → Prop
  | .fail e => whole s (buf ++ rest) = ([], some e)
  | .more n s' =>
    if eof then whole s buf = ([], none)
    else Inv s' ∧ whole s (buf ++ rest) = whole s' (buf.drop n ++ rest)
  | .token n t s' => Inv s' ∧ 0 < n ∧ n ≤ buf.length ∧
    whole s (buf ++ rest) =
      (t :: (whole s' (buf.drop n ++ rest)).1, (whole s' (buf.drop n ++ rest)).2)

/-- Every answer of the split function agrees with the tokens of the whole. -/
def Coherent (split : σ → List α → Bool → Cut σ τ ε)
    (whole : σ → List α → List τ × Option ε) (Inv : σ → Prop) : Prop :=
  ∀ s buf rest eof, Inv s → (eof = true → rest = []) →
    (split s buf eof).Agrees whole Inv s buf rest eof

section Whole

variable {split : σ → List α → Bool → Cut σ τ ε} {whole : σ → List α → List τ × Option ε}
  {Inv : σ → Prop}

/-- What one call ends with agrees with the tokens of the whole, and a token takes at least one
element off the stream. -/
def Scanned.Agrees (whole : σ → List α → List τ × Option ε) (Inv : σ → Prop)
    (s : σ) (stream : List α) : Scanned σ α τ ε → Prop
  | .failed e => whole s stream = ([], some e)
  | .done => whole s stream = ([], none)
  | .token t s' buf reads => Inv s' ∧ (buf ++ reads.flatten).length < stream.length ∧
    whole s stream = (t :: (whole s' (buf ++ reads.flatten)).1, (whole s' (buf ++ reads.flatten)).2)

theorem Scanned.Agrees.of_eq {s s₁ : σ} {l l₁ : List α} {r : Scanned σ α τ ε}
    (hw : whole s l = whole s₁ l₁) (hl : l₁.length ≤ l.length) (h : r.Agrees whole Inv s₁ l₁) :
    r.Agrees whole Inv s l := by
  cases r with
  | failed e | done => exact hw.trans h
  | token t s' buf reads =>
    obtain ⟨hi, hlt, he⟩ := h
    exact ⟨hi, Nat.lt_of_lt_of_le hlt hl, hw.trans he⟩

/-- One call, whatever the reads are. -/
theorem scan_agrees (h : Coherent split whole Inv) (reads : List (List α)) (s buf) (hs : Inv s) :
    (scan split reads s buf).Agrees whole Inv s (buf ++ reads.flatten) := by
  induction reads generalizing s buf with
  | nil =>
    have hc := h s buf [] true hs fun _ => rfl
    rw [scan]
    cases hsplit : split s buf true with
    | fail e | more n s' =>
      rw [hsplit] at hc
      simpa [Scanned.Agrees, Cut.Agrees] using hc
    | token n t s' =>
      rw [hsplit] at hc
      obtain ⟨hi, hn, hle, he⟩ := hc
      refine ⟨hi, ?_, by simpa using he⟩
      simp only [flatten_nil, append_nil, length_drop]
      omega
  | cons c cs ih =>
    rw [scan]
    split
    · next he =>
        obtain rfl : buf = [] := List.isEmpty_iff.mp he
        simpa using ih s c hs
    · have hc := h s buf (c ++ cs.flatten) false hs (by simp)
      cases hsplit : split s buf false with
      | fail e =>
        rw [hsplit] at hc
        exact hc
      | more n s' =>
        rw [hsplit] at hc
        obtain ⟨hi, he⟩ := hc
        refine Scanned.Agrees.of_eq ?_ ?_ (ih s' (buf.drop n ++ c) hi)
        · rw [append_assoc, ← he, flatten_cons]
        · simp only [length_append, length_drop, flatten_cons]
          omega
      | token n t s' =>
        rw [hsplit] at hc
        obtain ⟨hi, hn, hle, he⟩ := hc
        refine ⟨hi, ?_, he⟩
        simp only [length_append, length_drop]
        omega

/-- **Chunking does not matter.**  With a call for every element of the stream and one more, the
scanner returns the tokens of the whole stream. -/
theorem tokens_eq_whole (h : Coherent split whole Inv) (fuel : ℕ) (reads s buf) (hs : Inv s)
    (hf : (buf ++ reads.flatten).length < fuel) :
    tokens split fuel reads s buf = some (whole s (buf ++ reads.flatten)) := by
  induction fuel generalizing reads s buf with
  | zero => omega
  | succ fuel ih =>
    have ha := scan_agrees h reads s buf hs
    rw [tokens]
    cases hscan : scan split reads s buf with
    | failed e | done =>
      rw [hscan] at ha
      exact congrArg some ha.symm
    | token t s' buf' reads' =>
      rw [hscan] at ha
      obtain ⟨hi, hlt, he⟩ := ha
      simp only [ih reads' s' buf' hi (by omega), Option.map_some, he]

end Whole

/-! ## Keeping what was consumed -/

/-- A split function that keeps the elements it has consumed. -/
def recorded (split : σ → List α → Bool → Cut σ τ ε) :
    σ × List α → List α → Bool → Cut (σ × List α) τ ε :=
  fun s buf eof =>
    match split s.1 buf eof with
    | .fail e => .fail e
    | .more n s' => .more n (s', s.2 ++ buf.take n)
    | .token n t s' => .token n t (s', s.2 ++ buf.take n)

/-- The state in which a call that finds no token leaves the split function. -/
def leftover (split : σ → List α → Bool → Cut σ τ ε) : List (List α) → σ → List α → σ
  | [], s, buf =>
    match split s buf true with
    | .more _ s' => s'
    | _ => s
  | c :: cs, s, buf =>
    if buf.isEmpty then leftover split cs s c
    else
      match split s buf false with
      | .more n s' => leftover split cs s' (buf.drop n ++ c)
      | _ => s

section Recorded

variable {split : σ → List α → Bool → Cut σ τ ε} {whole : σ → List α → List τ × Option ε}
  {Inv : σ → Prop}

theorem Coherent.recorded (h : Coherent split whole Inv) :
    Coherent (recorded split) (fun s => whole s.1) fun s => Inv s.1 := by
  rintro ⟨s, wire⟩ buf rest eof hs heof
  have hc := h s buf rest eof hs heof
  simp only [Scanner.recorded]
  cases hsplit : split s buf eof with
  | fail e | more n s' | token n t s' => rw [hsplit] at hc; exact hc

variable (Chunk : σ → List α → List α → τ → σ → Prop)

/-- `Chunk s stream c t s'` says what is consumed along with a token: `c` off the front of
`stream`.  One answer keeps to it when it is a token with its chunk, or a request for more data
after the first part of one; at the end of the stream everything must be consumed. -/
def Cut.Consumes (s : σ) (buf rest : List α)
    (eof : Bool) : Cut σ τ ε → Prop
  | .fail _ => True
  | .more n s' => n ≤ buf.length ∧ (eof = true → n = buf.length) ∧
    ∀ c t s'', Chunk s' (buf.drop n ++ rest) c t s'' → Chunk s (buf ++ rest) (buf.take n ++ c) t s''
  | .token n t s' => n ≤ buf.length ∧ Chunk s (buf ++ rest) (buf.take n) t s'

/-- What one call has consumed when it ends. -/
def Scanned.Consumed (s : σ) (wire stream : List α)
    (last : σ × List α) : Scanned (σ × List α) α τ ε → Prop
  | .failed _ => True
  | .done => last.2 = wire ++ stream
  | .token t s' buf reads => ∃ c, s'.2 = wire ++ c ∧ stream = c ++ (buf ++ reads.flatten) ∧
    Chunk s stream c t s'.1

theorem scan_of_nil {s s' : σ} {n : ℕ} (h : split s [] true = .more n s') (reads : List (List α))
    (buf) (hb : buf ++ reads.flatten = []) :
    scan split reads s buf = .done ∧ leftover split reads s buf = s' := by
  induction reads generalizing buf with
  | nil =>
    obtain rfl : buf = [] := by simpa using hb
    rw [scan, leftover, h]
    exact ⟨rfl, rfl⟩
  | cons c cs ih =>
    obtain ⟨rfl, hcs⟩ := append_eq_nil_iff.mp hb
    exact ih c hcs

/-- **What a token consumes.**  One call consumes the chunk of the token it returns, whatever the
reads were, or the whole stream. -/
theorem scan_consumed {Chunk : σ → List α → List α → τ → σ → Prop}
    (h : ∀ s buf rest eof, Inv s → (eof = true → rest = []) →
      (split s buf eof).Consumes Chunk s buf rest eof)
    (hinv : ∀ s buf n s', Inv s → split s buf false = .more n s' → Inv s') (reads : List (List α))
    (s wire buf) (hs : Inv s) :
    (scan (recorded split) reads (s, wire) buf).Consumed Chunk s wire (buf ++ reads.flatten)
        (leftover (recorded split) reads (s, wire) buf) := by
  induction reads generalizing s wire buf with
  | nil =>
    have hc := h s buf [] true hs fun _ => rfl
    rw [scan, leftover]
    cases hsplit : split s buf true with
    | fail e => simp [recorded, hsplit, Scanned.Consumed]
    | more n s' =>
      rw [hsplit] at hc
      obtain ⟨-, hn, -⟩ := hc
      simp [recorded, hsplit, Scanned.Consumed, hn rfl]
    | token n t s' =>
      rw [hsplit] at hc
      simp only [recorded, hsplit, Scanned.Consumed]
      refine ⟨buf.take n, rfl, ?_, hc.2⟩
      simp
  | cons c cs ih =>
    rw [scan, leftover]
    split
    · next he =>
        obtain rfl : buf = [] := List.isEmpty_iff.mp he
        simpa using ih s wire c hs
    · have hc := h s buf (c ++ cs.flatten) false hs (by simp)
      cases hsplit : split s buf false with
      | fail e => simp [recorded, hsplit, Scanned.Consumed]
      | more n s' =>
        rw [hsplit] at hc
        obtain ⟨hn, -, hchunk⟩ := hc
        have hi := ih s' (wire ++ buf.take n) (buf.drop n ++ c) (hinv s buf n s' hs hsplit)
        have hr : recorded split (s, wire) buf false = .more n (s', wire ++ buf.take n) := by
          rw [recorded, hsplit]
        have hstream : buf ++ (c :: cs).flatten =
            buf.take n ++ (buf.drop n ++ c ++ cs.flatten) := by
          rw [append_assoc, ← append_assoc, take_append_drop, flatten_cons]
        rw [hr]
        dsimp only
        generalize scan (recorded split) cs (s', wire ++ buf.take n) (buf.drop n ++ c) = r at hi
        cases r with
        | failed e => trivial
        | done => rw [Scanned.Consumed, hstream, ← append_assoc]; exact hi
        | token t s'' buf' reads' =>
          obtain ⟨c', hw, hs', hchunk'⟩ := hi
          refine ⟨buf.take n ++ c', ?_, ?_, ?_⟩
          · rw [hw, append_assoc]
          · rw [hstream, hs', append_assoc]
          · rw [append_assoc] at hchunk'
            exact hchunk c' t s''.1 hchunk'
      | token n t s' =>
        rw [hsplit] at hc
        simp only [recorded, hsplit, Scanned.Consumed]
        refine ⟨buf.take n, rfl, ?_, ?_⟩
        · rw [← append_assoc, take_append_drop]
        · simpa using hc.2

end Recorded

end Olp.Scanner
