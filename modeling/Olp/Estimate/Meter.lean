import Olp.Estimate.Encoding

/-!
# Metering the text of a request

A `Meter` totals the text of a request for one counter: the first `exactBytes` bytes are
counted exactly, and what is past them is charged at the ratio of the exact part.  A walked
prompt does not keep all of its text.  `Input.addText` keeps the first `retainBytes` of it,
and of the rest only the length and the heuristic charge.

`read_eq_whole` says that a meter cannot tell: fed what was kept it ends in the state it ends in
when it is fed every text whole.  The invariant is `Meter.Balanced` on the meter, the bytes
counted and left out add up to the bytes fed, and `Input.Keeps` on the input, text is kept until
`retainBytes` are full.
-/

namespace Olp.Estimate

open Utf8 PairMerge
open List hiding span

/-- `MaxTokens` -/
abbrev maxEstimate : Nat := 2 ^ 53 - 1

/-- `ExactBytes` -/
abbrev exactBytes : Nat := 32 * 1024

/-- `minSample` -/
abbrev minSample : Nat := exactBytes / 8

/-- `scanWindow` -/
abbrev scanWindow : Nat := 2 * 1024

/-- `retainBytes` -/
abbrev retainBytes : Nat := exactBytes + 2 * scanWindow

/-- Add two charges, which saturate at `maxEstimate`. -/
def addBounded (a b : Nat) : Nat := if maxEstimate < a + b then maxEstimate else a + b

def heuristicTokens (text : Bytes) : Nat := ((symbols text).length + 3) / 4

def heuristicBytesTokens (n : Nat) : Nat := (n + 3) / 4

/-- How far an estimate can be trusted. -/
inductive Provenance where
  | tokenizer | calibrated | heuristic
deriving DecidableEq, Repr

/-! ## Cutting text -/

/-- The loop of `prefixOf`: the last place up to `n` where a rune starts. -/
def runeCut (text : Bytes) : Nat → Nat
  | 0 => 0
  | n + 1 => if text[n + 1]?.any runeStart then n + 1 else runeCut text n

/-- The longest start of a text that is at most `n` bytes and does not end inside a
character. -/
def prefixOf (text : Bytes) (n : Nat) : Bytes :=
  if text.length ≤ n then text else text.take (runeCut text n)

variable {n : Nat} (text : Bytes)

theorem runeCut_le (n : Nat) : runeCut text n ≤ n := by
  induction n with
  | zero => exact Nat.le_refl 0
  | succ n ih =>
    rw [runeCut]
    split
    · exact Nat.le_refl _
    · exact Nat.le_succ_of_le ih

theorem length_prefixOf (n : Nat) :
    (prefixOf text n).length ≤ n ∧ (prefixOf text n).length ≤ text.length := by
  rw [prefixOf]
  have := runeCut_le text n
  split
  · exact ⟨by assumption, Nat.le_refl _⟩
  · rw [length_take]
    omega

theorem prefixOf_of_le {text : Bytes} (h : text.length ≤ n) : prefixOf text n = text := by
  rw [prefixOf, if_pos h]

theorem length_prefixOf_lt {text : Bytes} (h : n < text.length) :
    (prefixOf text n).length < text.length := by
  have := (length_prefixOf text n).1
  omega

theorem runeCut_mono {m : Nat} (h₁ : runeCut text n ≤ m) (h₂ : m ≤ n) :
    runeCut text m = runeCut text n := by
  induction n with
  | zero => rw [Nat.le_zero.1 h₂]
  | succ n ih =>
    by_cases hm : m = n + 1
    · rw [hm]
    · rw [runeCut] at h₁ ⊢
      split
      · rename_i hstart
        rw [if_pos hstart] at h₁
        omega
      · rename_i hstart
        rw [if_neg hstart] at h₁
        exact ih h₁ (by omega)

theorem runeCut_take {text : Bytes} {k : Nat} (h : n < k) :
    runeCut (text.take k) n = runeCut text n := by
  induction n with
  | zero => rfl
  | succ n ih => rw [runeCut, runeCut, getElem?_take_of_lt h, ih (by omega)]

theorem prefixOf_prefixOf {m : Nat} (h : m ≤ n) :
    prefixOf (prefixOf text n) m = prefixOf text m := by
  by_cases hn : text.length ≤ n
  · rw [prefixOf_of_le hn]
  have hcut := runeCut_le text n
  have hlen : (text.take (runeCut text n)).length = runeCut text n := by
    rw [length_take]
    omega
  have hleft : prefixOf text n = text.take (runeCut text n) := if_neg hn
  have hright : prefixOf text m = text.take (runeCut text m) := if_neg (by omega)
  rw [hleft, hright, prefixOf, hlen]
  split
  · rename_i hle
    rw [runeCut_mono text hle h]
  · rename_i hlt
    have hm := runeCut_le text m
    rw [runeCut_take (by omega), take_take, Nat.min_eq_left (by omega)]

/-! ## Counting a start of a text -/

section

variable {rank : Bytes → Nat} {c : Scanner} {text} {limit tokens covered e : Nat}

theorem countFrom_le (h : countFrom rank c text limit tokens covered = some (n, e))
    (h₁ : covered ≤ limit) (h₂ : covered ≤ text.length) : e ≤ limit ∧ e ≤ text.length := by
  fun_induction countFrom rank c text limit tokens covered with
  | case1 tokens covered hlt hover | case3 tokens covered hlt =>
    cases h
    exact ⟨h₁, h₂⟩
  | case2 tokens covered hlt hover ih =>
    obtain ⟨k, -, h⟩ := Option.bind_eq_some_iff.1 h
    exact ih k h (Nat.not_lt.1 hover) (c.le text covered hlt)

theorem countFrom_whole (h : countFrom rank c text limit tokens covered = some (n, text.length))
    (hcovered : covered ≤ text.length) :
    countFrom rank c text text.length tokens covered = some (n, text.length) := by
  fun_induction countFrom rank c text limit tokens covered with
  | case1 tokens covered hlt hover =>
    cases h
    exact absurd hlt (Nat.lt_irrefl _)
  | case2 tokens covered hlt hover ih =>
    obtain ⟨k, hk, h⟩ := Option.bind_eq_some_iff.1 h
    have hle := c.le text covered hlt
    rw [countFrom, dif_pos hlt, if_neg (Nat.not_lt.2 hle), hk]
    exact ih k h hle
  | case3 tokens covered hlt =>
    rw [countFrom, dif_neg hlt]
    exact h

end

namespace Encoding

/-- What `countPrefix` returns, which is nothing counted when the encoding does not load. -/
def tokensWithin (e : Encoding) (text : Bytes) (limit : Nat) : Nat × Nat :=
  match e.countPrefix text limit with
  | .ok (some r) => r
  | _ => (0, 0)

def tokens (e : Encoding) (text : Bytes) : Nat := (e.tokensWithin text text.length).1

def loads (e : Encoding) : Bool := (newVocab e.ranks).isOk

theorem tokensWithin_cases (e : Encoding) (text : Bytes) (limit : Nat) :
    e.tokensWithin text limit = (0, 0) ∨
      ∃ v n k, newVocab e.ranks = .ok v ∧ e.tokensWithin text limit = (n, k) ∧
        countFrom v.rankOf e.scanner text limit 0 0 = some (n, k) := by
  rw [tokensWithin, countPrefix]
  cases hv : newVocab e.ranks with
  | error _ => exact .inl rfl
  | ok v =>
    cases hcount : countFrom v.rankOf e.scanner text limit 0 0 with
    | none => exact .inl (by simp [bind, Except.bind, hcount, pure, Except.pure])
    | some r =>
      exact .inr ⟨v, r.1, r.2, rfl, by simp [bind, Except.bind, hcount, pure, Except.pure], hcount⟩

theorem tokensWithin_le (e : Encoding) (text : Bytes) (limit : Nat) :
    (e.tokensWithin text limit).2 ≤ limit ∧ (e.tokensWithin text limit).2 ≤ text.length := by
  rcases e.tokensWithin_cases text limit with h | ⟨v, n, k, -, h, hcount⟩
  · rw [h]
    exact ⟨Nat.zero_le _, Nat.zero_le _⟩
  · rw [h]
    exact countFrom_le hcount (Nat.zero_le _) (Nat.zero_le _)

theorem tokensWithin_nil (e : Encoding) (limit : Nat) : e.tokensWithin [] limit = (0, 0) := by
  rcases e.tokensWithin_cases [] limit with h | ⟨v, n, k, -, h, hcount⟩
  · exact h
  · rw [countFrom, dif_neg (by simp)] at hcount
    rw [h, ← Option.some.inj hcount]

theorem tokensWithin_whole (e : Encoding) {text : Bytes} {limit : Nat}
    (h : (e.tokensWithin text limit).2 = text.length) :
    (e.tokensWithin text limit).1 = e.tokens text := by
  rcases e.tokensWithin_cases text limit with hzero | ⟨v, n, k, hv, hr, hcount⟩
  · rw [hzero] at h
    obtain rfl := length_eq_zero_iff.1 h.symm
    rw [tokens, tokensWithin_nil, tokensWithin_nil]
  · rw [hr] at h ⊢
    subst h
    have hwhole := countFrom_whole hcount (Nat.zero_le _)
    rw [tokens, tokensWithin, countPrefix, hv]
    simp only [bind, Except.bind, pure, Except.pure, hwhole]

variable {e : Encoding} (hload : e.loads = true) {text} {limit : Nat}

include hload

theorem countPrefix_of_le (h : text.length ≤ limit) :
    ∃ n, e.countPrefix text limit = .ok (some (n, text.length)) := by
  rw [loads] at hload
  cases hv : newVocab e.ranks with
  | error _ =>
    rw [hv] at hload
    cases hload
  | ok v =>
    obtain ⟨tokens, -, hranks, -⟩ := ranks_of_newVocab hv
    have hcount := countFrom_eq e.scanner hranks.le h 0 0 (Nat.zero_le _)
    rw [countPrefix, hv]
    simp only [bind, Except.bind, pure, Except.pure, hcount]
    exact ⟨_, rfl⟩

theorem tokensWithin_of_le (h : text.length ≤ limit) :
    (e.tokensWithin text limit).2 = text.length := by
  obtain ⟨n, hn⟩ := countPrefix_of_le hload h
  rw [tokensWithin, hn]

theorem count_eq_tokens (text : Bytes) : e.count text = .ok (some (e.tokens text)) := by
  obtain ⟨n, hn⟩ := countPrefix_of_le hload (Nat.le_refl text.length)
  rw [count, Encoding.tokens, tokensWithin, hn]
  rfl

end Encoding

/-! ## The meter -/

/-- The families of models that share a tokenizer. -/
inductive Family where
  | openaiO200k | openaiCL100k | anthropic | gemini | other
deriving DecidableEq, Repr

/-- A counter.  Its factor, unless it leaves the heuristic as it is, is the function that scales
a heuristic total and rounds it up. -/
structure Counter where
  family : Family
  encoding : Option Encoding
  factor : Option (Nat → Nat)

def Counter.scale (c : Counter) (heuristic : Nat) : Nat × Provenance :=
  match c.factor with
  | none => (heuristic, .heuristic)
  | some f => (f heuristic, .calibrated)

/-- The total of the text of one request. -/
structure Meter where
  counter : Counter
  /-- none for a heuristic meter -/
  encoding : Option Encoding
  budget : Nat
  tokens : Nat
  exact : Nat
  tail : Nat
  heuristic : Nat

/-- Start a total. -/
def Counter.meter (c : Counter) : Meter where
  counter := c
  encoding := c.encoding.filter Encoding.loads
  budget := if (c.encoding.filter Encoding.loads).isSome then exactBytes else 0
  tokens := 0
  exact := 0
  tail := 0
  heuristic := 0

namespace Meter

/-- What is counted of a segment: nothing once any text was left out. -/
def read (m : Meter) (e : Encoding) (text : Bytes) : Nat × Nat :=
  if m.tail = 0 ∧ 0 < m.budget then e.tokensWithin (prefixOf text (m.budget + scanWindow)) m.budget
  else (0, 0)

/-- Count one segment of which `text` is the start and `rest` the number of bytes that follow,
with its heuristic charge if it is known. -/
def add (m : Meter) (text : Bytes) (rest : Nat) (known : Option Nat) : Meter :=
  if text = [] ∧ rest = 0 then m
  else match m.encoding with
    | none => { m with heuristic := m.heuristic + known.getD (heuristicTokens text) }
    | some e =>
      let (n, covered) := m.read e text
      let m := { m with
        tokens := m.tokens + n, exact := m.exact + covered, budget := m.budget - covered }
      if covered < text.length ∨ 0 < rest then
        if m.exact = 0 then
          { m with encoding := none, heuristic := m.heuristic + known.getD (heuristicTokens text) }
        else { m with tail := m.tail + (text.length - covered + rest) }
      else m

/-- The tokens added so far, and how they were counted. -/
def total (m : Meter) : Nat × Provenance :=
  match m.encoding with
  | none => m.counter.scale m.heuristic
  | some _ =>
    if m.tail = 0 then (m.tokens, .tokenizer)
    else if m.exact < minSample then
      (addBounded m.tokens (heuristicBytesTokens m.tail), .heuristic)
    else (m.tokens + (m.tail * m.tokens + m.exact - 1) / m.exact, .calibrated)

/-- What a segment of some length and charge does to a meter that counted `r` of it. -/
def absorb (m : Meter) (r : Nat × Nat) (length charge : Nat) : Meter :=
  match m.encoding with
  | none => { m with heuristic := m.heuristic + charge }
  | some _ =>
    if r.2 < length then
      if m.exact + r.2 = 0 then
        { m with
          tokens := m.tokens + r.1, exact := m.exact + r.2, budget := m.budget - r.2,
          encoding := none, heuristic := m.heuristic + charge }
      else
        { m with
          tokens := m.tokens + r.1, exact := m.exact + r.2, budget := m.budget - r.2,
          tail := m.tail + (length - r.2) }
    else
      { m with tokens := m.tokens + r.1, exact := m.exact + r.2, budget := m.budget - r.2 }

/-- What a heuristic meter or an exact one reads of a segment. -/
def reads (m : Meter) (text : Bytes) : Nat × Nat :=
  match m.encoding with
  | none => (0, 0)
  | some e => m.read e text

variable (m : Meter)

theorem reads_le (text : Bytes) : (m.reads text).2 ≤ m.budget ∧ (m.reads text).2 ≤ text.length := by
  rw [reads]
  split
  · exact ⟨Nat.zero_le _, Nat.zero_le _⟩
  · rename_i e _
    rw [read]
    split
    · have h₁ := e.tokensWithin_le (prefixOf text (m.budget + scanWindow)) m.budget
      have h₂ := (length_prefixOf text (m.budget + scanWindow)).2
      omega
    · exact ⟨Nat.zero_le _, Nat.zero_le _⟩

variable {text}

theorem add_eq {rest : Nat} (known : Option Nat) (h : ¬ (text = [] ∧ rest = 0)) :
    m.add text rest known
      = m.absorb (m.reads text) (text.length + rest) (known.getD (heuristicTokens text)) := by
  have hle := (m.reads_le text).2
  rw [add, if_neg h, absorb]
  unfold reads at hle ⊢
  split
  · rfl
  · rename_i e he
    rw [he] at hle
    dsimp only at hle ⊢
    have hiff : ((m.read e text).2 < text.length ∨ 0 < rest)
        ↔ (m.read e text).2 < text.length + rest := by omega
    have hlen :
        text.length - (m.read e text).2 + rest = text.length + rest - (m.read e text).2 := by
      omega
    simp only [hiff, hlen]

theorem reads_nil : m.reads [] = (0, 0) := by
  rw [reads]
  split
  · rfl
  · rename_i e _
    rw [read]
    split
    · rw [prefixOf_of_le (Nat.zero_le _), Encoding.tokensWithin_nil]
    · rfl

theorem add_of_reads (hne : text ≠ []) (h : m.reads text = (0, 0)) :
    m.add text 0 none = m.add [] text.length (some (heuristicTokens text)) := by
  have hlen := length_pos_iff.2 hne
  rw [add_eq m none fun hn => hne hn.1, add_eq m _ fun hn => by omega, h, reads_nil]
  simp

theorem add_prefixOf {room : Nat} (h : room < text.length)
    (hroom : m.encoding.isSome → m.tail = 0 → 0 < m.budget → m.budget + scanWindow ≤ room) :
    m.add text 0 none = m.add (prefixOf text room) (text.length - (prefixOf text room).length)
          (some (heuristicTokens text)) := by
  have hlt := length_prefixOf_lt h
  have hreads : m.reads (prefixOf text room) = m.reads text := by
    unfold reads read
    split
    · rfl
    · rename_i e he
      split
      · rename_i hread
        rw [prefixOf_prefixOf text (hroom (by rw [he]; rfl) hread.1 hread.2)]
      · rfl
  have hne : ¬ (text = [] ∧ 0 = 0) := by
    rintro ⟨rfl, -⟩
    exact absurd h (Nat.not_lt_zero _)
  rw [add_eq m none hne, add_eq m _ (fun hn => by omega), hreads]
  congr 1
  omega

theorem add_add {rest : Nat} (charge : Nat) (hrest : 0 < rest) (hne : text ≠ []) :
    (m.add [] rest (some charge)).add text 0 none
      = m.add [] (rest + text.length) (some (charge + heuristicTokens text)) := by
  have hlen := length_pos_iff.2 hne
  have hleft : m.add [] rest (some charge) = m.absorb (0, 0) rest charge := by
    rw [add_eq m _ (fun hn => by omega), reads_nil]
    simp
  have hright : m.add [] (rest + text.length) (some (charge + heuristicTokens text))
      = m.absorb (0, 0) (rest + text.length) (charge + heuristicTokens text) := by
    rw [add_eq m _ (fun hn => by omega), reads_nil]
    simp
  rw [hleft, hright, add_eq _ none fun hn => hne hn.1, Option.getD_none, Nat.add_zero]
  rcases m with ⟨counter, _ | e, budget, tokens, exact, tail, heuristic⟩
  · simp [absorb, Nat.add_assoc]
  · by_cases hexact : exact = 0
    · simp [absorb, hrest, hexact, Nat.add_assoc]
    · have hread : (absorb ⟨counter, some e, budget, tokens, exact, tail, heuristic⟩ (0, 0) rest
          charge).reads text = (0, 0) := by
        simp [absorb, reads, read, hrest, hexact, hrest.ne']
      rw [hread]
      simp [absorb, hrest, hlen, hexact, Nat.add_assoc]

/-! ## What a meter has counted -/

/-- The bytes counted and the bytes left out add up, and text is left out only after some was
counted. -/
structure Balanced (m : Meter) (bytes : Nat) : Prop where
  budget : m.encoding.isSome → m.budget + m.exact = exactBytes
  bytes : m.encoding.isSome → m.exact + m.tail = bytes
  counted : m.encoding.isSome → 0 < m.tail → 0 < m.exact

theorem balanced_meter (c : Counter) : c.meter.Balanced 0 := by
  refine ⟨fun h => ?_, fun _ => rfl, fun _ h => absurd h (Nat.lt_irrefl 0)⟩
  exact if_pos h

theorem Balanced.absorb {m : Meter} {bytes : Nat} (h : m.Balanced bytes) {r : Nat × Nat}
    {length : Nat} (charge : Nat) (h₁ : r.2 ≤ m.budget) (h₂ : r.2 ≤ length) :
    (m.absorb r length charge).Balanced (bytes + length) := by
  unfold Meter.absorb
  cases he : m.encoding with
  | none => constructor <;> intro hs <;> simp at hs
  | some e =>
    have hs : m.encoding.isSome := by rw [he]; rfl
    have hb := h.budget hs
    have ht := h.bytes hs
    have hc := h.counted hs
    dsimp only
    split
    · split
      · constructor <;> intro hn <;> cases hn
      · constructor <;> intro _ <;> dsimp only <;> omega
    · constructor <;> intro _ <;> dsimp only <;> omega

theorem Balanced.add {m : Meter} {bytes : Nat} (h : m.Balanced bytes) (text : Bytes) (rest : Nat)
    (known : Option Nat) : (m.add text rest known).Balanced (bytes + (text.length + rest)) := by
  by_cases hn : text = [] ∧ rest = 0
  · rw [Meter.add, if_pos hn, hn.1, hn.2]
    exact h
  · rw [add_eq m known hn]
    have hle := m.reads_le text
    exact h.absorb _ hle.1 (by omega)

end Meter

/-! ## What a walked prompt keeps -/

/-- One text the tokenizer counts on its own: its start, how many bytes of it are not kept, and
the heuristic charge of all of it. -/
structure Segment where
  text : Bytes
  rest : Nat
  heuristic : Nat
deriving DecidableEq

/-- What walking a prompt found. -/
structure Input where
  text : List Segment
  kept : Nat
  /-- how many bytes may be kept, `retainBytes` if it is `0` -/
  retain : Nat
  bytes : Nat
  heuristic : Nat
  roles : List Bytes
  messages : Nat
  names : Nat
  flat : Nat
  approx : Bool
deriving DecidableEq

namespace Input

def blank : Input := ⟨[], 0, 0, 0, 0, [], 0, 0, 0, false⟩

def limit (i : Input) : Nat := if 0 < i.retain then i.retain else retainBytes

def room (i : Input) : Nat := i.limit - i.kept

/-- Keep nothing of a text but its length and its charge, with the text left out before it. -/
def gather (segments : List Segment) (length charge : Nat) : List Segment :=
  match segments.getLast? with
  | some last =>
    if last.text = [] then
      segments.dropLast ++ [⟨[], last.rest + length, addBounded last.heuristic charge⟩]
    else segments ++ [⟨[], length, charge⟩]
  | none => segments ++ [⟨[], length, charge⟩]

/-- Add one text. -/
def addText (i : Input) (text : Bytes) : Input :=
  if text = [] then i
  else
    let charge := heuristicTokens text
    let i := { i with heuristic := addBounded i.heuristic charge, bytes := i.bytes + text.length }
    if text.length ≤ i.room then
      { i with text := i.text ++ [⟨text, 0, charge⟩], kept := i.kept + text.length }
    else if 0 < i.room then
      let start := prefixOf text i.room
      { i with
        text := i.text ++ [⟨start, text.length - start.length, charge⟩], kept := i.limit }
    else { i with text := gather i.text text.length charge }

def addFlat (i : Input) (tokens : Nat) : Input := { i with flat := addBounded i.flat tokens }

end Input

/-- Feed a meter what was kept of some texts. -/
def Meter.readSegments (m : Meter) (segments : List Segment) : Meter :=
  segments.foldl (fun m s => m.add s.text s.rest (some s.heuristic)) m

/-- Feed a meter some texts whole. -/
def Meter.readTexts (m : Meter) (texts : List Bytes) : Meter :=
  texts.foldl (fun m t => m.add t 0 none) m

def textBytes (texts : List Bytes) : Nat := (texts.map List.length).sum

def charges (texts : List Bytes) : Nat := (texts.map heuristicTokens).sum

theorem Meter.Balanced.readTexts {m : Meter} {bytes : Nat} (h : m.Balanced bytes)
    (texts : List Bytes) :
    (m.readTexts texts).Balanced (bytes + textBytes texts) := by
  induction texts generalizing m bytes with
  | nil => exact h
  | cons t texts ih =>
    have := ih (h.add t 0 none)
    rw [Nat.add_zero, Nat.add_assoc] at this
    rwa [textBytes, map_cons, sum_cons]

namespace Input

/-- What an input keeps of some texts: all of them while there is room, and else as much as
there is room for. -/
structure Keeps (texts : List Bytes) (i : Input) : Prop where
  retain : i.retain = 0
  bytes : i.bytes = textBytes texts
  kept_le : i.kept ≤ retainBytes
  kept_bytes : i.kept ≤ i.bytes
  kept_eq : i.kept < retainBytes → i.kept = i.bytes
  segments : (i.text.map fun s => s.text.length).sum ≤ i.kept
  rest : ∀ s ∈ i.text, s.text = [] → 0 < s.rest
  charged : (i.text.map Segment.heuristic).sum = charges texts
  heuristic : i.heuristic = charges texts

theorem keeps_blank : Keeps [] blank := by
  constructor <;> simp [blank, textBytes, charges]

theorem gather_cases (segments : List Segment) (length charge : Nat) :
    (∃ init last, segments = init ++ [last] ∧ last.text = [] ∧
      gather segments length charge
        = init ++ [⟨[], last.rest + length, addBounded last.heuristic charge⟩]) ∨
    gather segments length charge = segments ++ [⟨[], length, charge⟩] := by
  rcases eq_nil_or_concat segments with rfl | ⟨init, last, rfl⟩
  · exact .inr rfl
  · by_cases hlast : last.text = []
    · refine .inl ⟨init, last, concat_eq_append .., hlast, ?_⟩
      simp [gather, hlast]
    · refine .inr ?_
      simp [gather, hlast]

/-- What `addText` does with a text that is not empty. -/
inductive Added (i : Input) (t : Bytes) (j : Input) : Prop where
  | /-- there is room for all of it -/
    whole (h : t.length ≤ i.room) (text : j.text = i.text ++ [⟨t, 0, heuristicTokens t⟩])
      (kept : j.kept = i.kept + t.length)
  | /-- there is room for its start -/
    start (h : i.room < t.length) (pos : 0 < i.room)
      (text : j.text = i.text ++
        [⟨prefixOf t i.room, t.length - (prefixOf t i.room).length, heuristicTokens t⟩])
      (kept : j.kept = i.limit)
  | /-- there is no room -/
    none (h : i.room = 0) (text : j.text = gather i.text t.length (heuristicTokens t))
      (kept : j.kept = i.kept)

theorem added (i : Input) {t : Bytes} (ht : t ≠ []) : Added i t (i.addText t) := by
  rw [addText, if_neg ht]
  dsimp only
  split
  · exact .whole (by assumption) rfl rfl
  · rename_i hlt
    split
    · exact .start (Nat.not_le.1 hlt) (by assumption) rfl rfl
    · rename_i hpos
      exact .none (Nat.eq_zero_of_not_pos hpos) rfl rfl

theorem addText_sums (i : Input) {t : Bytes} (ht : t ≠ []) :
    (i.addText t).retain = i.retain ∧ (i.addText t).bytes = i.bytes + t.length ∧
      (i.addText t).heuristic = addBounded i.heuristic (heuristicTokens t) := by
  rw [addText, if_neg ht]
  dsimp only
  split
  · exact ⟨rfl, rfl, rfl⟩
  · split <;> exact ⟨rfl, rfl, rfl⟩

variable {texts : List Bytes} {i : Input} {t : Bytes}

theorem charges_concat (texts : List Bytes) (t : Bytes) :
    charges (texts ++ [t]) = charges texts + heuristicTokens t := by
  simp [charges]

theorem textBytes_concat (texts : List Bytes) (t : Bytes) :
    textBytes (texts ++ [t]) = textBytes texts + t.length := by
  simp [textBytes]

theorem addBounded_of_le {a b : Nat} (h : a + b ≤ maxEstimate) : addBounded a b = a + b := by
  rw [addBounded, if_neg (Nat.not_lt.2 h)]

section

variable (h : Keeps texts i)

include h

theorem Keeps.limit : i.limit = retainBytes := by
  rw [Input.limit, h.retain, if_neg (Nat.lt_irrefl 0)]

theorem Keeps.room : i.room = retainBytes - i.kept := by
  rw [Input.room, h.limit]

theorem Keeps.last_le {init : List Segment} {last : Segment}
    (htext : i.text = init ++ [last]) : last.heuristic ≤ charges texts := by
  rw [← h.charged, htext, map_append, sum_append]
  simp

theorem Keeps.push {j : Input} {seg : Segment} (hretain : j.retain = 0)
    (hbytes : j.bytes = textBytes (texts ++ [t]))
    (hheuristic : j.heuristic = charges (texts ++ [t]))
    (htext : j.text = i.text ++ [seg]) (hcharge : seg.heuristic = heuristicTokens t)
    (hrest : seg.text = [] → 0 < seg.rest) (hle : j.kept ≤ retainBytes) (hkb : j.kept ≤ j.bytes)
    (heq : j.kept < retainBytes → j.kept = j.bytes) (hseg : i.kept + seg.text.length ≤ j.kept) :
    Keeps (texts ++ [t]) j := by
  refine ⟨hretain, hbytes, hle, hkb, heq, ?_, ?_, ?_, hheuristic⟩
  · rw [htext, map_append, sum_append, map_singleton, sum_singleton]
    exact (Nat.add_le_add_right h.segments _).trans hseg
  · intro s hs hempty
    rw [htext] at hs
    rcases mem_append.1 hs with hs | hs
    · exact h.rest s hs hempty
    · obtain rfl := mem_singleton.1 hs
      exact hrest hempty
  · rw [htext, map_append, sum_append, h.charged, charges_concat, map_singleton,
      sum_singleton, hcharge]

theorem Keeps.addText (t : Bytes)
    (hmax : charges (texts ++ [t]) ≤ maxEstimate) : Keeps (texts ++ [t]) (i.addText t) := by
  by_cases ht : t = []
  · subst ht
    rw [Input.addText, if_pos rfl]
    have hzero : heuristicTokens [] = 0 := by simp [heuristicTokens]
    exact ⟨h.retain, by rw [textBytes_concat, h.bytes]; rfl, h.kept_le, h.kept_bytes, h.kept_eq,
      h.segments, h.rest, by rw [charges_concat, h.charged, hzero]; rfl,
      by rw [charges_concat, h.heuristic, hzero]; rfl⟩
  obtain ⟨hretain, hbytes, hheuristic⟩ := i.addText_sums ht
  have hlen := length_pos_iff.2 ht
  have hle := h.kept_le
  have hkb := h.kept_bytes
  have heq := h.kept_eq
  have hroom := h.room
  have hlimit := h.limit
  have hsum : (i.addText t).heuristic = charges (texts ++ [t]) := by
    rw [charges_concat] at hmax ⊢
    rw [hheuristic, h.heuristic, addBounded_of_le hmax]
  have hnew : (i.addText t).bytes = textBytes (texts ++ [t]) := by
    rw [hbytes, h.bytes, textBytes_concat]
  have hretain' : (i.addText t).retain = 0 := hretain.trans h.retain
  cases i.added ht with
  | whole hfits htext hkept =>
    exact h.push hretain' hnew hsum htext rfl (fun hempty => absurd hempty ht) (by omega) (by omega)
      (by omega) hkept.ge
  | start hover hpos htext hkept =>
    have hstart := length_prefixOf t i.room
    exact h.push hretain' hnew hsum htext rfl (fun _ => by dsimp only; omega) (by omega) (by omega)
      (by omega) (by dsimp only; omega)
  | none hfull htext hkept =>
    rcases gather_cases i.text t.length (heuristicTokens t) with
      ⟨init, last, hlast, hempty, hgather⟩ | hgather
    · have hinit : ∀ s ∈ init, s ∈ i.text := fun s hs => by
        rw [hlast]
        exact mem_append_left _ hs
      rw [charges_concat] at hmax
      have hbounded : addBounded last.heuristic (heuristicTokens t)
          = last.heuristic + heuristicTokens t :=
        addBounded_of_le ((Nat.add_le_add_right (h.last_le hlast) _).trans hmax)
      have hseg := h.segments
      have hcharged := h.charged
      rw [hlast, map_append, sum_append, map_singleton, sum_singleton] at hseg hcharged
      rw [hempty] at hseg
      refine ⟨hretain', hnew, by omega, by omega, by omega, ?_, ?_, ?_, hsum⟩
      · rw [htext, hgather, map_append, sum_append, hkept]
        exact hseg
      · intro s hs hs₀
        rw [htext, hgather] at hs
        rcases mem_append.1 hs with hs | hs
        · exact h.rest s (hinit s hs) hs₀
        · obtain rfl := mem_singleton.1 hs
          exact Nat.add_pos_right _ hlen
      · rw [htext, hgather, map_append, sum_append, map_singleton,
          sum_singleton, charges_concat, ← hcharged]
        dsimp only
        omega
    · exact h.push hretain' hnew hsum (htext.trans hgather) rfl (fun _ => hlen)
        (by omega) (by omega)
        (by omega) hkept.ge

/-- Reading what was kept with one text more is reading that text too. -/
theorem Keeps.readSegments {m : Meter} (hm : m.Balanced 0)
    (hread : m.readSegments i.text = m.readTexts texts)
    (hmax : charges (texts ++ [t]) ≤ maxEstimate) :
    m.readSegments (i.addText t).text = m.readTexts (texts ++ [t]) := by
  have happend : ∀ (l : List Segment) (s : Segment), m.readSegments (l ++ [s])
      = (m.readSegments l).add s.text s.rest (some s.heuristic) := fun l s => by
    rw [Meter.readSegments, foldl_append]
    rfl
  have htexts : m.readTexts (texts ++ [t]) = (m.readTexts texts).add t 0 none := by
    rw [Meter.readTexts, foldl_append]
    rfl
  by_cases ht : t = []
  · subst ht
    rw [htexts, Input.addText, if_pos rfl, hread, Meter.add, if_pos ⟨rfl, rfl⟩]
  have hbalanced := hm.readTexts texts
  rw [Nat.zero_add, ← h.bytes] at hbalanced
  have hkb := h.kept_bytes
  have hroom := h.room
  have hretain : retainBytes = exactBytes + 2 * scanWindow := rfl
  rw [htexts]
  cases i.added ht with
  | whole hfits htext hkept =>
    rw [htext, happend, hread]
    rfl
  | start hover hpos htext hkept =>
    rw [htext, happend, hread, ← Meter.add_prefixOf _ hover]
    intro hsome htail hbudget
    have h₁ := hbalanced.budget hsome
    have h₂ := hbalanced.bytes hsome
    omega
  | none hfull htext hkept =>
    rcases gather_cases i.text t.length (heuristicTokens t) with
      ⟨init, last, hlast, hempty, hgather⟩ | hgather
    · have hbounded : addBounded last.heuristic (heuristicTokens t)
          = last.heuristic + heuristicTokens t := by
        rw [charges_concat] at hmax
        exact addBounded_of_le ((Nat.add_le_add_right (h.last_le hlast) _).trans hmax)
      have hrest : 0 < last.rest := h.rest last (by rw [hlast]; simp) hempty
      rw [hlast, happend, hempty] at hread
      rw [htext, hgather, happend, ← hread, hbounded, Meter.add_add _ _ hrest ht]
    · rw [htext, hgather, happend, hread, Meter.add_of_reads _ ht]
      unfold Meter.reads
      split
      · rfl
      · rename_i e he
        have hsome : (m.readTexts texts).encoding.isSome := by rw [he]; rfl
        have h₁ := hbalanced.budget hsome
        have h₂ := hbalanced.bytes hsome
        exact if_neg (by omega)

end

def ofTexts (texts : List Bytes) : Input := texts.foldl addText blank

/-- What the input keeps of the texts is read like the texts themselves. -/
theorem read_eq_whole (hmax : charges texts ≤ maxEstimate) {m : Meter} (hm : m.Balanced 0) :
    Keeps texts (ofTexts texts) ∧ m.readSegments (ofTexts texts).text = m.readTexts texts := by
  induction texts using List.reverseRecOn with
  | nil => exact ⟨keeps_blank, rfl⟩
  | append_singleton texts t ih =>
    have hle : charges texts ≤ maxEstimate := by
      rw [charges_concat] at hmax
      omega
    obtain ⟨hkeeps, hread⟩ := ih hle
    have hfold : ofTexts (texts ++ [t]) = (ofTexts texts).addText t := by
      rw [ofTexts, foldl_append]
      rfl
    rw [hfold]
    exact ⟨hkeeps.addText t hmax, hkeeps.readSegments hm hread hmax⟩

end Input

end Olp.Estimate
