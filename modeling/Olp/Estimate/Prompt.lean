import Olp.Estimate.Meter

/-!
# Counting a walked prompt

`Counter.count` totals what walking a prompt found, for one counter; `Counter.countWhole` is the
reference, a meter fed every text whole.  A `Reading` is what a walk reads: the texts and roles
of a request, its messages and names, and its flat charges.

A prompt may take over the counts of another that reads the same (`Prompt.follows`).  Below
`exactBytes` the order of the texts does not matter to that, because the count is a sum
(`Meter.readTexts_of_le`).  A batch of a completions request is counted prompt by prompt, and a
batch shares its counts rightly with a batch only.
-/

namespace Olp.Estimate

open Utf8 List

/-! ## Counting -/

/-- The overhead of a family's chat format. -/
structure Framing where
  perMessage : Nat
  perName : Nat
  reply : Nat

def Counter.framing (c : Counter) : Framing :=
  match c.family with
  | .openaiO200k | .openaiCL100k => ⟨3, 1, 3⟩
  | _ => ⟨0, 0, 0⟩

def Framing.overhead (f : Framing) (messages names : Nat) : Nat :=
  if messages = 0 then 0 else messages * f.perMessage + names * f.perName + f.reply

/-- How many tokens a counter finds, and how it counted them. -/
structure Count where
  tokens : Nat
  provenance : Provenance
deriving DecidableEq, Repr

namespace Counter

/-- The framing of a conversation, whose reply is primed once. -/
def overhead (c : Counter) (primed : Bool) (messages names : Nat) : Nat :=
  (if primed then { c.framing with reply := 0 } else c.framing).overhead messages names

/-- The total of a meter that has read a prompt, with framing and flat charges. -/
def finish (c : Counter) (m : Meter) (i : Input) (primed : Bool) : Count :=
  match m.encoding with
  | none => ⟨addBounded m.total.1 i.flat, m.total.2⟩
  | some _ =>
    ⟨addBounded (addBounded m.total.1 (c.overhead primed i.messages i.names)) i.flat,
      if i.approx ∧ m.total.2 = .tokenizer then .calibrated else m.total.2⟩

/-- Roles are text that only a tokenizer reads. -/
def readRoles (m : Meter) (roles : List Bytes) : Meter :=
  if m.encoding.isSome then m.readTexts roles else m

/-- The meter a prompt starts with, within what is left of an allowance. -/
def allowed (c : Counter) : Option Nat → Meter
  | none => c.meter
  | some budget =>
    let m := { c.meter with budget := min c.meter.budget budget }
    if m.budget = 0 then { m with encoding := none } else m

/-- Count one input, with what is left of the allowance. -/
def countWithBudget (c : Counter) (i : Input) (primed : Bool) (budget : Option Nat) : Count × Nat :=
  let m := c.allowed budget
  match m.encoding with
  | none =>
    let (tokens, provenance) := c.scale i.heuristic
    (⟨addBounded tokens i.flat, provenance⟩, m.budget)
  | some _ =>
    let m := readRoles (m.readSegments i.text) i.roles
    (c.finish m i primed, m.budget)

def count (c : Counter) (i : Input) (primed : Bool) : Count := (c.countWithBudget i primed none).1

end Counter

/-- What a walk reads of a request. -/
structure Reading where
  texts : List Bytes
  roles : List Bytes
  messages : Nat
  names : Nat
  flats : List Nat
  approx : Bool

/-- What the walk keeps of it. -/
def Reading.input (r : Reading) : Input :=
  { Input.ofTexts r.texts with
    roles := r.roles
    messages := r.messages
    names := r.names
    flat := r.flats.foldl addBounded 0
    approx := r.approx }

/-- The count of a meter fed every text whole. -/
def Counter.countWhole (c : Counter) (r : Reading) (primed : Bool) : Count :=
  c.finish (Counter.readRoles (c.meter.readTexts r.texts) r.roles) r.input primed

/-! ## Truncated prompts count like whole ones -/

namespace Meter

variable {m : Meter}

theorem add_of_none (h : m.encoding = none) (text : Bytes) :
    (m.add text 0 none).encoding = none ∧ (m.add text 0 none).counter = m.counter ∧
      (m.add text 0 none).heuristic = m.heuristic + heuristicTokens text := by
  rw [add]
  split
  · rename_i hempty
    refine ⟨h, rfl, ?_⟩
    rw [hempty.1]
    simp [heuristicTokens]
  · rw [h]
    exact ⟨rfl, rfl, rfl⟩

theorem readTexts_of_none (h : m.encoding = none) (texts : List Bytes) :
    (m.readTexts texts).encoding = none ∧ (m.readTexts texts).counter = m.counter ∧
      (m.readTexts texts).heuristic = m.heuristic + charges texts := by
  induction texts generalizing m with
  | nil => exact ⟨h, rfl, rfl⟩
  | cons t texts ih =>
    obtain ⟨h₁, h₂, h₃⟩ := add_of_none h t
    obtain ⟨h₄, h₅, h₆⟩ := ih h₁
    refine ⟨h₄, h₅.trans h₂, h₆.trans ?_⟩
    rw [h₃, charges, charges, map_cons, sum_cons, Nat.add_assoc]

end Meter

variable {r : Reading}

/-- The input that a walk keeps is counted like every text whole. -/
theorem count_eq_countWhole (c : Counter) (hmax : charges r.texts ≤ maxEstimate) (primed : Bool) :
    c.count r.input primed = c.countWhole r primed := by
  obtain ⟨hkeeps, hread⟩ := Input.read_eq_whole hmax (Meter.balanced_meter c)
  rw [Counter.count, Counter.countWithBudget, Counter.countWhole, Counter.allowed]
  split
  · rename_i hnone
    obtain ⟨h₁, h₂, h₃⟩ := Meter.readTexts_of_none hnone r.texts
    have hroles :
        Counter.readRoles (c.meter.readTexts r.texts) r.roles = c.meter.readTexts r.texts := by
      rw [Counter.readRoles, h₁]
      rfl
    have hheuristic : r.input.heuristic = (c.meter.readTexts r.texts).heuristic := by
      rw [h₃]
      exact hkeeps.heuristic.trans (Nat.zero_add _).symm
    rw [hroles, Counter.finish, Meter.total, h₁, h₂, hheuristic]
    rfl
  · have htext : c.meter.readSegments r.input.text = c.meter.readTexts r.texts := hread
    rw [htext]
    rfl

/-! ## Exact counts -/

def Encoding.sum (e : Encoding) (texts : List Bytes) : Nat := (texts.map e.tokens).sum

variable (e : Encoding)

theorem Encoding.sum_cons (t : Bytes) (texts : List Bytes) :
    e.sum (t :: texts) = e.tokens t + e.sum texts := by
  rfl

theorem Encoding.sum_append (a b : List Bytes) : e.sum (a ++ b) = e.sum a + e.sum b := by
  rw [Encoding.sum, map_append, List.sum_append]
  rfl

theorem Encoding.tokens_nil : e.tokens [] = 0 := by
  rw [Encoding.tokens, Encoding.tokensWithin_nil]

namespace Meter

variable {m : Meter} {e} {texts : List Bytes} {t : Bytes}

theorem read_whole (ht : t ≠ []) (h : (m.read e t).2 = t.length) : (m.read e t).1 = e.tokens t := by
  have hlen := length_pos_iff.2 ht
  rw [read] at h ⊢
  split at h
  · rename_i hread
    rw [if_pos hread]
    have hle := (e.tokensWithin_le (prefixOf t (m.budget + scanWindow)) m.budget).2
    have hwhole : prefixOf t (m.budget + scanWindow) = t := by
      by_contra hne
      have hlt : m.budget + scanWindow < t.length := by
        by_contra hnot
        exact hne (prefixOf_of_le (Nat.not_lt.1 hnot))
      have := length_prefixOf_lt hlt
      omega
    rw [hwhole] at h ⊢
    exact e.tokensWithin_whole h
  · dsimp only at h
    omega

/-- While nothing was left out, the tokens are those of the texts. -/
structure Exact (e : Encoding) (texts : List Bytes) (m : Meter) : Prop where
  encoding : m.encoding = none ∨ m.encoding = some e
  tokens : m.encoding.isSome → m.tail = 0 → m.tokens = e.sum texts

theorem Exact.add (h : Exact e texts m) (t : Bytes) : Exact e (texts ++ [t]) (m.add t 0 none) := by
  have hsum : e.sum (texts ++ [t]) = e.sum texts + e.tokens t := by simp [Encoding.sum]
  by_cases ht : t = []
  · subst ht
    refine ⟨h.encoding, ?_⟩
    rw [hsum, Encoding.tokens_nil]
    exact h.tokens
  rw [add_eq m none fun hn => ht hn.1, Nat.add_zero]
  have hle := (m.reads_le t).2
  unfold Meter.absorb
  rcases h.encoding with he | he
  · rw [he]
    exact ⟨.inl rfl, fun hs => by cases hs⟩
  · have hreads : m.reads t = m.read e t := by rw [reads, he]
    rw [hreads] at hle ⊢
    have htokens := h.tokens (by rw [he]; rfl)
    rw [he]
    dsimp only
    split
    · rename_i hlt
      split
      · exact ⟨.inl rfl, fun hs => by cases hs⟩
      · refine ⟨.inr rfl, fun _ htail => ?_⟩
        dsimp only at htail
        omega
    · rename_i hge
      refine ⟨.inr rfl, fun _ htail => ?_⟩
      rw [htokens htail, hsum, read_whole ht (by omega)]

theorem Exact.readTexts (h : Exact e texts m) (more : List Bytes) :
    Exact e (texts ++ more) (m.readTexts more) := by
  induction more generalizing texts m with
  | nil => rwa [append_nil]
  | cons t more ih =>
    have := ih (h.add t)
    rwa [append_assoc] at this

end Meter

variable {c : Counter}

theorem Counter.exact_meter {e : Encoding} (h : c.encoding = some e) :
    Meter.Exact e [] c.meter := by
  refine ⟨?_, fun _ _ => rfl⟩
  change c.encoding.filter Encoding.loads = none ∨ c.encoding.filter Encoding.loads = some e
  rw [h, Option.filter_some]
  split
  · exact .inr rfl
  · exact .inl rfl

variable {m : Meter}

theorem Counter.exact_readRoles {e : Encoding} {texts : List Bytes} (h : Meter.Exact e texts m)
    (roles : List Bytes) : Meter.Exact e (texts ++ roles) (Counter.readRoles m roles) := by
  rw [Counter.readRoles]
  split
  · exact h.readTexts roles
  · rename_i hnone
    refine ⟨h.encoding, fun hs => absurd hs hnone⟩

theorem foldl_addBounded {flats : List Nat} {a : Nat} (h : a + flats.sum ≤ maxEstimate) :
    flats.foldl addBounded a = a + flats.sum := by
  induction flats generalizing a with
  | nil => rfl
  | cons x flats ih =>
    rw [sum_cons] at h ⊢
    rw [foldl_cons, Input.addBounded_of_le (by omega), ih (by omega)]
    omega

theorem Meter.total_tokenizer (h : m.total.2 = .tokenizer) :
    m.encoding.isSome ∧ m.tail = 0 ∧ m.total.1 = m.tokens := by
  unfold Meter.total at h ⊢
  cases he : m.encoding with
  | none =>
    rw [he] at h
    simp only [Counter.scale] at h
    split at h <;> cases h
  | some e =>
    rw [he] at h
    dsimp only at h ⊢
    by_cases htail : m.tail = 0
    · rw [if_pos htail]
      exact ⟨rfl, htail, rfl⟩
    · rw [if_neg htail] at h
      split at h <;> cases h

variable {i : Input}

theorem Counter.finish_tokenizer {primed : Bool}
    (h : (c.finish m i primed).provenance = .tokenizer) :
    m.encoding.isSome ∧ m.tail = 0 ∧ i.approx = false ∧ (c.finish m i primed).tokens
      = addBounded (addBounded m.tokens (c.overhead primed i.messages i.names)) i.flat := by
  unfold Counter.finish at h ⊢
  cases he : m.encoding with
  | none =>
    rw [he] at h
    have := (m.total_tokenizer h).1
    rw [he] at this
    cases this
  | some e =>
    rw [he] at h
    dsimp only at h ⊢
    split at h
    · cases h
    · rename_i happrox
      obtain ⟨-, htail, htokens⟩ := m.total_tokenizer h
      refine ⟨rfl, htail, ?_, by rw [htokens]⟩
      by_contra hnot
      exact happrox ⟨by simpa using hnot, h⟩

theorem Counter.loads_of_isSome {texts roles : List Bytes}
    (h : (Counter.readRoles (c.meter.readTexts texts) roles).encoding.isSome) :
    ∃ e, c.encoding = some e ∧ e.loads = true := by
  cases hc : c.meter.encoding with
  | none =>
    have htexts := (Meter.readTexts_of_none hc texts).1
    rw [Counter.readRoles, if_neg (by rw [htexts]; exact Bool.false_ne_true), htexts] at h
    cases h
  | some e =>
    have hfilter : c.encoding.filter Encoding.loads = some e := hc
    rw [Option.filter_eq_some_iff] at hfilter
    exact ⟨e, hfilter⟩

/-- A count reported as the tokenizer's is the sum of the tokens of all texts and roles, the
framing and the flat charges. -/
theorem tokenizer_exact {primed : Bool} (h : (c.countWhole r primed).provenance = .tokenizer) :
    ∃ e, c.encoding = some e ∧ (∀ t, e.count t = .ok (some (e.tokens t))) ∧ r.approx = false ∧
      (e.sum (r.texts ++ r.roles) + c.overhead primed r.messages r.names + r.flats.sum
          ≤ maxEstimate →
        (c.countWhole r primed).tokens
          = e.sum (r.texts ++ r.roles) + c.overhead primed r.messages r.names + r.flats.sum) := by
  obtain ⟨hsome, htail, happrox, htokens⟩ := Counter.finish_tokenizer h
  obtain ⟨e, he, hload⟩ := Counter.loads_of_isSome hsome
  have hexact := Counter.exact_readRoles ((Counter.exact_meter he).readTexts r.texts) r.roles
  refine ⟨e, he, Encoding.count_eq_tokens hload, happrox, fun hmax => ?_⟩
  have hflat : r.input.flat = r.flats.sum := by
    change r.flats.foldl addBounded 0 = _
    rw [foldl_addBounded (by omega), Nat.zero_add]
  rw [Counter.countWhole, htokens, hexact.tokens hsome htail, nil_append, hflat]
  change addBounded (addBounded _ (c.overhead primed r.messages r.names)) _ = _
  rw [Input.addBounded_of_le (Nat.le_trans (Nat.le_add_right _ _) hmax),
    Input.addBounded_of_le hmax]

/-! ## Counts that do not depend on the order -/

namespace Meter

/-- Texts within the budget are all counted. -/
theorem readTexts_of_le {e : Encoding} (hload : e.loads = true) {m : Meter}
    (he : m.encoding = some e) (htail : m.tail = 0) {texts : List Bytes}
    (h : textBytes texts ≤ m.budget) :
    m.readTexts texts = { m with
      tokens := m.tokens + e.sum texts
      exact := m.exact + textBytes texts
      budget := m.budget - textBytes texts } := by
  induction texts generalizing m with
  | nil => rfl
  | cons t texts ih =>
    have hbytes : textBytes (t :: texts) = t.length + textBytes texts := by simp [textBytes]
    have hadd : m.add t 0 none = { m with
        tokens := m.tokens + e.tokens t
        exact := m.exact + t.length
        budget := m.budget - t.length } := by
      by_cases ht : t = []
      · subst ht
        rw [Meter.add, if_pos ⟨rfl, rfl⟩, Encoding.tokens_nil]
        rfl
      have hlen := length_pos_iff.2 ht
      have hwhole : (m.read e t).2 = t.length := by
        rw [read, if_pos ⟨htail, by omega⟩, prefixOf_of_le (by omega)]
        exact Encoding.tokensWithin_of_le hload (by omega)
      have hreads : m.reads t = (e.tokens t, t.length) := by
        rw [reads, he]
        exact Prod.ext (read_whole ht hwhole) hwhole
      rw [add_eq m none fun hn => ht hn.1, Meter.absorb, hreads, he, Nat.add_zero]
      exact if_neg (Nat.lt_irrefl _)
    change (m.add t 0 none).readTexts texts = _
    rw [hadd, ih (m := { m with
        tokens := m.tokens + e.tokens t
        exact := m.exact + t.length
        budget := m.budget - t.length }) he htail (by dsimp only; omega), hbytes, e.sum_cons]
    simp only [Nat.add_assoc, Nat.sub_sub]

end Meter

def before (a b : Bytes) : Bool := !List.lex b a

/-- The lists hold the same elements, in any order. -/
def sameElements {α : Type} [DecidableEq α] (key : α → Bytes) (a b : List α) : Bool :=
  a.mergeSort (fun x y => before (key x) (key y)) = b.mergeSort (fun x y => before (key x) (key y))

theorem perm_of_sameElements {α : Type} [DecidableEq α] {key : α → Bytes} {a b : List α}
    (h : sameElements key a b = true) : a.Perm b := by
  have heq := of_decide_eq_true h
  exact (mergeSort_perm a _).symm.trans (heq ▸ mergeSort_perm b _)

/-- Any counter would count the two the same. -/
def Input.equal (i j : Input) : Bool :=
  if i.flat ≠ j.flat ∨ i.approx ≠ j.approx ∨ i.messages ≠ j.messages ∨ i.names ≠ j.names ∨
      i.bytes ≠ j.bytes ∨ i.text.length ≠ j.text.length ∨ i.roles.length ≠ j.roles.length then false
  else if i.text = j.text ∧ i.roles = j.roles then true
  else if exactBytes < i.bytes + textBytes i.roles then false
  else sameElements Segment.text i.text j.text && sameElements id i.roles j.roles

def wholeSegment (t : Bytes) : Segment := ⟨t, 0, heuristicTokens t⟩

namespace Input

theorem text_foldl (hretain : i.retain = 0) {texts : List Bytes}
    (h : i.kept + textBytes texts ≤ retainBytes) :
    (texts.foldl addText i).text = i.text ++ (texts.filter (· ≠ [])).map wholeSegment := by
  induction texts generalizing i with
  | nil => simp
  | cons t texts ih =>
    have hbytes : textBytes (t :: texts) = t.length + textBytes texts := by simp [textBytes]
    rw [hbytes] at h
    rw [foldl_cons]
    by_cases ht : t = []
    · subst ht
      rw [addText, if_pos rfl, ih hretain (by simpa using h)]
      simp
    · have hroom : i.room = retainBytes - i.kept := by
        rw [room, limit, hretain, if_neg (Nat.lt_irrefl 0)]
      cases i.added ht with
      | whole hfits htext hkept =>
        rw [ih ((i.addText_sums ht).1.trans hretain) (by omega), htext]
        simp [ht, wholeSegment]
      | start hover => omega
      | none hfull =>
        have := length_pos_iff.2 ht
        omega

theorem text_ofTexts {texts : List Bytes} (h : textBytes texts ≤ retainBytes) :
    (ofTexts texts).text = (texts.filter (· ≠ [])).map wholeSegment := by
  refine (text_foldl rfl ?_).trans (nil_append _)
  exact (Nat.zero_add _).trans_le h

end Input

theorem Encoding.sum_filter (texts : List Bytes) : e.sum (texts.filter (· ≠ [])) = e.sum texts := by
  induction texts with
  | nil => rfl
  | cons t texts ih =>
    by_cases ht : t = []
    · rw [filter_cons_of_neg (by simp [ht]), ih, e.sum_cons, ht, e.tokens_nil, Nat.zero_add]
    · rw [filter_cons_of_pos (by simp [ht]), e.sum_cons, ih, e.sum_cons]

theorem Encoding.sum_perm {a b : List Bytes} (h : a.Perm b) : e.sum a = e.sum b :=
  (h.map e.tokens).sum_eq

theorem Counter.count_congr (c : Counter) {j : Input} (primed : Bool) (htext : i.text = j.text)
    (hroles : i.roles = j.roles) (hheuristic : i.heuristic = j.heuristic) (hflat : i.flat = j.flat)
    (hmessages : i.messages = j.messages) (hnames : i.names = j.names)
    (happrox : i.approx = j.approx) :
    c.count i primed = c.count j primed := by
  unfold Counter.count Counter.countWithBudget Counter.finish
  rw [htext, hroles, hheuristic, hflat, hmessages, hnames, happrox]

theorem Reading.heuristic_eq (h : charges r.texts ≤ maxEstimate) :
    r.input.heuristic = (r.input.text.map Segment.heuristic).sum := by
  obtain ⟨hkeeps, -⟩ := Input.read_eq_whole h (Meter.balanced_meter ⟨.other, none, none⟩)
  exact hkeeps.heuristic.trans hkeeps.charged.symm

theorem Reading.bytes_eq (h : charges r.texts ≤ maxEstimate) :
    r.input.bytes = textBytes r.texts := by
  obtain ⟨hkeeps, -⟩ := Input.read_eq_whole h (Meter.balanced_meter ⟨.other, none, none⟩)
  exact hkeeps.bytes

theorem textBytes_append (a b : List Bytes) : textBytes (a ++ b) = textBytes a + textBytes b := by
  simp [textBytes]

theorem Counter.countWhole_of_le {e : Encoding} (he : c.meter.encoding = some e)
    (h : textBytes (r.texts ++ r.roles) ≤ exactBytes) (primed : Bool) :
    c.countWhole r primed
      = c.finish { c.meter with
          tokens := c.meter.tokens + e.sum (r.texts ++ r.roles)
          exact := c.meter.exact + textBytes (r.texts ++ r.roles)
          budget := c.meter.budget - textBytes (r.texts ++ r.roles) } r.input primed := by
  have hload : e.loads = true := (Option.filter_eq_some_iff.1 he).2
  have hbudget : c.meter.budget = exactBytes := (Meter.balanced_meter c).budget (by rw [he]; rfl)
  have hle : textBytes r.texts ≤ c.meter.budget := by
    rw [textBytes_append] at h
    omega
  have hall := Meter.readTexts_of_le hload he rfl (hbudget ▸ h)
  have hsome : (c.meter.readTexts r.texts).encoding.isSome := by
    rw [Meter.readTexts_of_le hload he rfl hle, he]
    rfl
  rw [← hall, Counter.countWhole, Counter.readRoles, if_pos hsome, Meter.readTexts, Meter.readTexts,
    Meter.readTexts, foldl_append]

/-- **Inputs that read the same are counted the same**, by any counter. -/
theorem count_of_equal (c : Counter) {r' : Reading} (hmax : charges r.texts ≤ maxEstimate)
    (hmax' : charges r'.texts ≤ maxEstimate) (h : r.input.equal r'.input = true) (primed : Bool) :
    c.count r.input primed = c.count r'.input primed := by
  unfold Input.equal at h
  split at h
  · cases h
  rename_i hsame
  simp only [ne_eq, not_or, not_not] at hsame
  obtain ⟨hflat, happrox, hmessages, hnames, hbytes, -, -⟩ := hsame
  have hheuristic :
    (r.input.text.map Segment.heuristic).sum = (r'.input.text.map Segment.heuristic).sum →
      r.input.heuristic = r'.input.heuristic := fun hsum => by
    rw [Reading.heuristic_eq hmax, Reading.heuristic_eq hmax', hsum]
  split at h
  · rename_i heq
    exact c.count_congr primed heq.1 heq.2 (hheuristic (by rw [heq.1])) hflat
      hmessages hnames happrox
  split at h
  · cases h
  rename_i hover
  obtain ⟨htext, hroles⟩ := Bool.and_eq_true_iff.1 h
  have htext := perm_of_sameElements htext
  have hroles : r.roles.Perm r'.roles := perm_of_sameElements hroles
  have hsum := hheuristic (htext.map Segment.heuristic).sum_eq
  cases he : c.meter.encoding with
  | none =>
    -- a heuristic counter reads the sum of the charges
    unfold Counter.count Counter.countWithBudget Counter.allowed
    dsimp only
    rw [he]
    rw [hsum, hflat]
  | some e =>
    have hb := Reading.bytes_eq hmax
    have hb' := Reading.bytes_eq hmax'
    have hretain : exactBytes ≤ retainBytes := by decide
    have hroleBytes : textBytes r.roles = textBytes r'.roles := (hroles.map List.length).sum_eq
    have hle : textBytes (r.texts ++ r.roles) ≤ exactBytes := by
      rw [textBytes_append, ← hb]
      exact Nat.not_lt.1 hover
    have hbytes' : textBytes (r.texts ++ r.roles) = textBytes (r'.texts ++ r'.roles) := by
      rw [textBytes_append, textBytes_append, ← hb, ← hb', hbytes, hroleBytes]
    have htexts : (r.texts.filter (· ≠ [])).Perm (r'.texts.filter (· ≠ [])) := by
      have h₁ : textBytes r.texts ≤ retainBytes := by
        omega
      have h₂ : textBytes r'.texts ≤ retainBytes := by
        rw [← hb', ← hbytes, hb]
        exact h₁
      have hperm : ((Input.ofTexts r.texts).text.map Segment.text).Perm
          ((Input.ofTexts r'.texts).text.map Segment.text) := htext.map Segment.text
      rw [Input.text_ofTexts h₁, Input.text_ofTexts h₂, map_map, map_map] at hperm
      simpa [wholeSegment, Function.comp_def] using hperm
    have htokens : e.sum (r.texts ++ r.roles) = e.sum (r'.texts ++ r'.roles) := by
      rw [e.sum_append, e.sum_append, ← e.sum_filter r.texts, ← e.sum_filter r'.texts,
        e.sum_perm htexts, e.sum_perm hroles]
    rw [count_eq_countWhole c hmax, count_eq_countWhole c hmax', c.countWhole_of_le he hle,
      c.countWhole_of_le he (hbytes' ▸ hle), hbytes', htokens]
    unfold Counter.finish
    rw [hflat, happrox, hmessages, hnames]

/-! ## Sharing counts -/

/-- A value of a request's document, as the walk of a prompt tells them apart. -/
inductive Node where
  | text (t : Bytes)
  | /-- a token id -/ id
  | list (items : List Node)
  | other

mutual

/-- Walk the prompt of a completions or embeddings request. -/
def embedding (i : Input) : Node → Input
  | .text t => i.addText t
  | .list items => embedItems i items
  | .id => i
  | .other => i

def embedItems (i : Input) : List Node → Input
  | [] => i
  | .id :: items => embedItems (i.addFlat 1) items
  | n :: items => embedItems (embedding i n) items

end

def Provenance.rank : Provenance → Nat
  | .tokenizer => 0
  | .calibrated => 1
  | .heuristic => 2

def weaker (a b : Provenance) : Provenance := if a.rank < b.rank then b else a

/-- The count of the prompts of a batch so far, the largest of them, and what is left of the
exact budget. -/
structure Batch where
  count : Option Count
  context : Nat
  budget : Nat

/-- Count one prompt of a batch. -/
def Batch.add (c : Counter) (b : Batch) (item : Node) : Batch :=
  let (part, left) := c.countWithBudget (embedding .blank item) false (some b.budget)
  { count := some
      ⟨addBounded (b.count.elim 0 Count.tokens) part.tokens,
        b.count.elim part.provenance fun sum => weaker sum.provenance part.provenance⟩
    context := max b.context part.tokens
    budget := left }

/-- A request: whether it is a completions request, and the bytes of its `prompt` field. -/
structure Request where
  completions : Bool
  prompt : Bytes

/-- A request walked once, with the tokens that a provider's cache already holds for it. -/
structure Prompt where
  request : Option Request
  reading : Reading
  retainedInput : Nat := 0

namespace Prompt

def withRetainedInputTokens (p : Prompt) (tokens : Int) : Prompt :=
  { p with retainedInput := min tokens.toNat maxEstimate }

def retainedCount (p : Prompt) (counted : Option Count × Nat) : Option Count × Nat :=
  (counted.1.map fun count => { count with tokens := addBounded count.tokens p.retainedInput },
    addBounded counted.2 p.retainedInput)

section

variable (parse : Bytes → Node)

/-- The prompts of a completions request that holds several. -/
def batch (p : Prompt) : Option (List Node) :=
  p.request.bind fun q =>
    if q.completions then
      match parse q.prompt with
      | .list (.text t :: items) => some (.text t :: items)
      | .list (.list l :: items) => some (.list l :: items)
      | _ => none
    else none

/-- What `input` enters in the tally when no count is reused: the count of a prompt, and of the
largest prompt it holds.  A prompt that follows another shares it. -/
def counted (p : Prompt) (c : Counter) : Option Count × Nat :=
  match p.batch parse with
  | some items =>
    let b := items.foldl (Batch.add c) ⟨none, 0, exactBytes⟩
    (b.count, b.context)
  | none =>
    let count := c.count p.reading.input false
    (some count, count.tokens)

def input (p : Prompt) (c : Counter) : Option Count × Nat := p.retainedCount (p.counted parse c)

end

/-- `Follow` takes over the counts of another prompt. -/
def follows (p source : Prompt) : Bool :=
  (match p.request, source.request with
    | some q, some q' => !(q.completions || q'.completions) || q.prompt = q'.prompt
    | _, _ => true) &&
  p.reading.input.equal source.reading.input

theorem batch_eq_some {parse : Bytes → Node} {p : Prompt} (h : (p.batch parse).isSome) :
    ∃ q, p.request = some q ∧ q.completions = true := by
  rw [batch] at h
  cases hq : p.request with
  | none =>
    rw [hq] at h
    cases h
  | some q =>
    rw [hq, Option.bind_some] at h
    split at h
    · rename_i hc
      exact ⟨q, rfl, hc⟩
    · cases h

/-- Where both prompts are batches or neither is, counts are shared only when they are the
same. -/
theorem counted_of_follows {p source : Prompt} (hmax : charges p.reading.texts ≤ maxEstimate)
    (hmax' : charges source.reading.texts ≤ maxEstimate) (h : p.follows source = true)
    (parse : Bytes → Node) (hbatch : (p.batch parse).isSome = (source.batch parse).isSome)
    (c : Counter) : p.counted parse c = source.counted parse c := by
  obtain ⟨hguard, hequal⟩ := Bool.and_eq_true_iff.1 h
  have hcount := count_of_equal c hmax hmax' hequal false
  cases hp : p.batch parse with
  | none =>
    have hs : source.batch parse = none := by
      rw [hp] at hbatch
      exact Option.isNone_iff_eq_none.1 (Option.isSome_eq_false_iff.1 hbatch.symm)
    rw [counted, counted, hp, hs, hcount]
  | some items =>
    have hsome : (p.batch parse).isSome := by rw [hp]; rfl
    obtain ⟨q, hq, hc⟩ := batch_eq_some hsome
    obtain ⟨q', hq', hc'⟩ := batch_eq_some (hbatch ▸ hsome)
    rw [hq, hq'] at hguard
    have hprompt : q.prompt = q'.prompt := by simpa [hc] using hguard
    have hs : source.batch parse = some items := by
      rw [← hp, batch, batch, hq, hq', Option.bind_some, Option.bind_some, hc, hc', hprompt]
    rw [counted, counted, hp, hs]

end Prompt

/-- **Truncated prompts count like whole ones.**  The input a walk keeps holds at most
`retainBytes` of text and is counted as a meter fed every text whole counts it; a count with
the tokenizer's provenance is exact; and a prompt that follows another has the same count in the
tally, where both are batches of a completions request or neither is, and adds to it the tokens
that are retained for itself. -/
theorem truncated_counts_like_whole (c : Counter) (primed : Bool) :
    (∀ r : Reading, charges r.texts ≤ maxEstimate →
      (r.input.text.map fun s => s.text.length).sum ≤ retainBytes ∧
      c.count r.input primed = c.countWhole r primed ∧
      ((c.count r.input primed).provenance = .tokenizer →
        ∃ e, c.encoding = some e ∧ (∀ t, e.count t = .ok (some (e.tokens t))) ∧
          (e.sum (r.texts ++ r.roles) + c.overhead primed r.messages r.names + r.flats.sum
              ≤ maxEstimate →
            (c.count r.input primed).tokens
              = e.sum (r.texts ++ r.roles) + c.overhead primed r.messages r.names + r.flats.sum))) ∧
    ∀ (parse : Bytes → Node) (p source : Prompt), charges p.reading.texts ≤ maxEstimate →
      charges source.reading.texts ≤ maxEstimate → p.follows source = true →
      (p.batch parse).isSome = (source.batch parse).isSome →
      p.counted parse c = source.counted parse c ∧
        p.input parse c = p.retainedCount (source.counted parse c) := by
  constructor
  · intro r hmax
    obtain ⟨hkeeps, -⟩ := Input.read_eq_whole hmax (Meter.balanced_meter c)
    have hcount := count_eq_countWhole c hmax primed
    refine ⟨hkeeps.segments.trans hkeeps.kept_le, hcount, fun hprovenance => ?_⟩
    rw [hcount] at hprovenance ⊢
    obtain ⟨e, he, hends, -, hexact⟩ := tokenizer_exact hprovenance
    exact ⟨e, he, hends, hexact⟩
  · intro parse p source hmax hmax' hfollows hbatch
    have hcounted := Prompt.counted_of_follows hmax hmax' hfollows parse hbatch c
    exact ⟨hcounted, hcounted ▸ rfl⟩

/-- A counter without a tokenizer whose factor is one and a half. -/
def halfMore : Counter := ⟨.gemini, none, some fun n => (3 * n + 1) / 2⟩

def twoLetters : Reading := ⟨[[0x61], [0x61]], [], 0, 0, [], false⟩

theorem heuristicTokens_letter : heuristicTokens [0x61] = 1 := by
  rw [heuristicTokens, symbols_of_ne (by simp), decodeRune_ascii (by decide)]
  simp

theorem countWithBudget_halfMore (i : Input) (primed : Bool) (budget : Option Nat) :
    halfMore.countWithBudget i primed budget
      = (⟨addBounded ((3 * i.heuristic + 1) / 2) i.flat, .calibrated⟩, 0) := by
  cases budget <;> rfl

theorem addText_letter : Input.blank.addText [0x61]
    = ⟨[⟨[0x61], 0, 1⟩], 1, 0, 1, 1, [], 0, 0, 0, false⟩ := by
  rw [Input.addText, heuristicTokens_letter]
  rfl

theorem ofTexts_letters : Input.ofTexts twoLetters.texts
    = ⟨[⟨[0x61], 0, 1⟩, ⟨[0x61], 0, 1⟩], 2, 0, 2, 2, [], 0, 0, 0, false⟩ := by
  change (Input.blank.addText [0x61]).addText [0x61] = _
  rw [addText_letter, Input.addText, heuristicTokens_letter]
  rfl

/-- The two letters, in messages of some roles. -/
def lettersOf (roles : List Bytes) : Prompt := ⟨none, { twoLetters with roles }, 0⟩

theorem lettersOf_follows :
    (lettersOf [[0x61], [0x75]]).follows (lettersOf [[0x75], [0x61]]) = true := by
  simp [Prompt.follows, lettersOf, Reading.input, Input.equal, ofTexts_letters, textBytes,
    sameElements, mergeSort, before, exactBytes]

/-- A prompt with retained tokens takes over the counts of one whose messages are in another
order. -/
theorem truncated_counts_like_whole_retained :
    ((lettersOf [[0x61], [0x75]]).withRetainedInputTokens 7).input (fun _ => .other) halfMore =
      ((lettersOf [[0x61], [0x75]]).withRetainedInputTokens 7).retainedCount
        ((lettersOf [[0x75], [0x61]]).counted (fun _ => .other) halfMore) := by
  have hmax : charges twoLetters.texts ≤ maxEstimate := by
    norm_num [charges, twoLetters, heuristicTokens_letter]
  exact ((truncated_counts_like_whole halfMore false).2 _
    ((lettersOf [[0x61], [0x75]]).withRetainedInputTokens 7) (lettersOf [[0x75], [0x61]])
    hmax hmax lettersOf_follows rfl).2

/-- An embeddings request that also carries the `prompt` field of a completions request is
followed by it, though the batch is rounded up prompt by prompt. -/
theorem follows_one_batch : ∃ (parse : Bytes → Node) (p source : Prompt),
    p.follows source = true ∧ p.input parse halfMore ≠ source.input parse halfMore := by
  refine ⟨fun _ => .list [.text [0x61], .text [0x61]], ⟨some ⟨true, []⟩, twoLetters, 0⟩,
    ⟨some ⟨false, []⟩, twoLetters, 0⟩, ?_, ?_⟩
  · simp [Prompt.follows, Input.equal]
  · have hpart : ∀ b : Batch, Batch.add halfMore b (.text [0x61])
        = ⟨some ⟨addBounded (b.count.elim 0 Count.tokens) 2,
            b.count.elim .calibrated fun sum => weaker sum.provenance .calibrated⟩,
          max b.context 2, 0⟩ := by
      intro b
      rw [Batch.add, countWithBudget_halfMore, embedding, addText_letter]
      rfl
    have hbatch : (Prompt.mk (some ⟨true, []⟩) twoLetters 0).counted
        (fun _ => .list [.text [0x61], .text [0x61]]) halfMore = (some ⟨4, .calibrated⟩, 2) := by
      change (_, _) = _
      rw [foldl_cons, foldl_cons, foldl_nil, hpart, hpart]
      rfl
    have hwhole : (Prompt.mk (some ⟨false, []⟩) twoLetters 0).counted
        (fun _ => .list [.text [0x61], .text [0x61]]) halfMore = (some ⟨3, .calibrated⟩, 3) := by
      change (some (halfMore.count twoLetters.input false), _) = _
      rw [Counter.count, countWithBudget_halfMore, Reading.input, ofTexts_letters]
      rfl
    rw [Prompt.input, Prompt.input, hbatch, hwhole]
    decide

end Olp.Estimate
