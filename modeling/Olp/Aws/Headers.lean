import Mathlib.Data.List.Nodup
import Olp.Checked

/-!
# Headers of AWS event frames

`ValidateHeaders` of `protocols/awsframe` walks the header block of an event frame
before the SDK decodes it.  The block is a sequence of headers: a length byte, a
name, a value type and a value laid out as its type says.

Every index and slice of the source is a checked read here, so that a read past
the end of the input would show as `Fault.outOfRange`.

* `Header` is a complete header of a known value type, and `Header.encode` its bytes;
* `header_eq_ok` says that one turn of the loop cuts off one header;
* `validateHeaders_exact` says which byte strings are accepted.
-/

namespace Olp.Aws

open List

abbrev Bytes := List UInt8

/-- How a walk over the headers fails. -/
inductive Fault where
  | /-- "malformed or ambiguous AWS event headers" -/ invalid
  | /-- An index or a slice past the end of the input. -/ outOfRange
deriving DecidableEq, Repr

/-! ## Checked reads -/

/-- `data[i]`. -/
def byteAt (data : Bytes) (i : Nat) : Except Fault UInt8 :=
  match data[i]? with
  | some b => .ok b
  | none => .error .outOfRange

/-- `data[:n]`. -/
def upTo (data : Bytes) (n : Nat) : Except Fault Bytes :=
  if n ≤ data.length then .ok (data.take n) else .error .outOfRange

/-- `data[n:]`. -/
def after (data : Bytes) (n : Nat) : Except Fault Bytes :=
  if n ≤ data.length then .ok (data.drop n) else .error .outOfRange

theorem byteAt_append (s : Bytes) (b : UInt8) (t : Bytes) :
    byteAt (s ++ b :: t) s.length = .ok b := by
  simp [byteAt]

theorem upTo_append (s t : Bytes) : upTo (s ++ t) s.length = .ok s := by
  simp [upTo]

theorem after_append (s t : Bytes) : after (s ++ t) s.length = .ok t := by
  simp [after]

/-! ## The walk -/

def ascii (s : String) : Bytes := s.toList.map fun c => UInt8.ofNat c.toNat

/-- The names whose value has to be a string. -/
def reserved : List Bytes :=
  [ascii ":message-type", ascii ":event-type", ascii ":exception-type", ascii ":content-type"]

/-- The bytes a byte array or a string takes, with its length. -/
def sizedWidth (data : Bytes) : Except Fault Nat := do
  require (¬ data.length < 2) .invalid
  let head ← upTo data 2
  -- `binary.BigEndian.Uint16`
  let low ← byteAt head 1
  let high ← byteAt head 0
  return 2 + (high.toNat * 256 + low.toNat)

/-- The bytes the value of a type takes: `switch kind`. -/
def width (kind : UInt8) (data : Bytes) : Except Fault Nat :=
  match kind.toNat with
  | 0 | 1 => .ok 0
  | 2 => .ok 1
  | 3 => .ok 2
  | 4 => .ok 4
  | 5 | 8 => .ok 8
  | 9 => .ok 16
  | 6 | 7 => sizedWidth data
  | _ => .error .invalid

/-- One turn of the loop: the name of the header and what follows its value. -/
def header (seen : List Bytes) (data : Bytes) : Except Fault (Bytes × Bytes) := do
  let length ← byteAt data 0
  let data ← after data 1
  require (¬ (length.toNat = 0 ∨ data.length < length.toNat + 1)) .invalid
  let name ← upTo data length.toNat
  let kind ← byteAt data length.toNat
  let data ← after data (length.toNat + 1)
  require (name ∉ seen) .invalid
  require (¬ (name ∈ reserved ∧ kind ≠ 7)) .invalid
  let width ← width kind data
  require (¬ data.length < width) .invalid
  let data ← after data width
  return (name, data)

/-! ## Headers -/

/-- The values of each type, complete. -/
inductive Complete : UInt8 → Bytes → Prop
  | /-- true -/ yes : Complete 0 []
  | /-- false -/ no : Complete 1 []
  | /-- a byte -/ byte (value : Bytes) : value.length = 1 → Complete 2 value
  | /-- a 16-bit integer -/ short (value : Bytes) : value.length = 2 → Complete 3 value
  | /-- a 32-bit integer -/ integer (value : Bytes) : value.length = 4 → Complete 4 value
  | /-- a 64-bit integer -/ long (value : Bytes) : value.length = 8 → Complete 5 value
  | /-- a byte array after its length -/ bytes (high low : UInt8) (body : Bytes) :
      body.length = high.toNat * 256 + low.toNat → Complete 6 (high :: low :: body)
  | /-- a string after its length -/ string (high low : UInt8) (body : Bytes) :
      body.length = high.toNat * 256 + low.toNat → Complete 7 (high :: low :: body)
  | /-- milliseconds since the epoch -/ timestamp (value : Bytes) :
      value.length = 8 → Complete 8 value
  | /-- a UUID -/ uuid (value : Bytes) : value.length = 16 → Complete 9 value

/-- A complete header with a non-empty name. -/
structure Header where
  name : Bytes
  kind : UInt8
  value : Bytes
  name_ne : name ≠ []
  name_lt : name.length < 256
  complete : Complete kind value

namespace Header

/-- The bytes of a header. -/
def encode (h : Header) : Bytes :=
  UInt8.ofNat h.name.length :: h.name ++ h.kind :: h.value

def Typed (h : Header) : Prop := h.name ∈ reserved → h.kind = 7

instance (h : Header) : Decidable h.Typed := inferInstanceAs (Decidable (_ → _))

end Header

theorem sizedWidth_cons (high low : UInt8) (data : Bytes) :
    sizedWidth (high :: low :: data) = .ok (2 + (high.toNat * 256 + low.toNat)) := by
  simp [sizedWidth, require, upTo, byteAt, bind, Except.bind, pure, Except.pure]

variable {data : Bytes}

theorem sizedWidth_short (h : data.length < 2) : sizedWidth data = .error .invalid := by
  simp [sizedWidth, require, h, bind, Except.bind]

theorem width_append {kind : UInt8} {value : Bytes} (h : Complete kind value) (rest : Bytes) :
    width kind (value ++ rest) = .ok value.length := by
  cases h with
  | bytes high low body hb | string high low body hb =>
    refine (sizedWidth_cons high low (body ++ rest)).trans ?_
    rw [← hb, Nat.add_comm]
    rfl
  | _ => simp_all [width]

theorem sized_of_width {n : Nat} (h : sizedWidth data = .ok n) (hn : n ≤ data.length) :
    ∃ (high low : UInt8) (body : Bytes),
      body.length = high.toNat * 256 + low.toNat ∧ data.take n = high :: low :: body := by
  match data with
  | [] | [_] => simp [sizedWidth_short] at h
  | high :: low :: data =>
    rw [sizedWidth_cons] at h
    obtain rfl : 2 + (high.toNat * 256 + low.toNat) = n := by simpa using h
    refine ⟨high, low, data.take (high.toNat * 256 + low.toNat), ?_, ?_⟩
    · simp only [length_cons] at hn
      exact length_take_of_le (by omega)
    · rw [Nat.add_comm]
      rfl

theorem complete_of_width {kind : UInt8} {n : Nat} (h : width kind data = .ok n)
    (hn : n ≤ data.length) : Complete kind (data.take n) := by
  have hkind : ∀ {k : UInt8}, kind.toNat = k.toNat → kind = k := UInt8.toNat_inj.1
  have hlen := length_take_of_le hn
  unfold width at h
  split at h
  case h_1 hk =>
    obtain rfl : 0 = n := by simpa using h
    exact hkind (k := 0) hk ▸ .yes
  case h_2 hk =>
    obtain rfl : 0 = n := by simpa using h
    exact hkind (k := 1) hk ▸ .no
  case h_3 hk =>
    obtain rfl : 1 = n := by simpa using h
    exact hkind (k := 2) hk ▸ .byte _ hlen
  case h_4 hk =>
    obtain rfl : 2 = n := by simpa using h
    exact hkind (k := 3) hk ▸ .short _ hlen
  case h_5 hk =>
    obtain rfl : 4 = n := by simpa using h
    exact hkind (k := 4) hk ▸ .integer _ hlen
  case h_6 hk =>
    obtain rfl : 8 = n := by simpa using h
    exact hkind (k := 5) hk ▸ .long _ hlen
  case h_7 hk =>
    obtain rfl : 8 = n := by simpa using h
    exact hkind (k := 8) hk ▸ .timestamp _ hlen
  case h_8 hk =>
    obtain rfl : 16 = n := by simpa using h
    exact hkind (k := 9) hk ▸ .uuid _ hlen
  case h_9 hk =>
    obtain ⟨high, low, body, hbody, htake⟩ := sized_of_width h hn
    exact htake ▸ hkind (k := 6) hk ▸ .bytes high low body hbody
  case h_10 hk =>
    obtain ⟨high, low, body, hbody, htake⟩ := sized_of_width h hn
    exact htake ▸ hkind (k := 7) hk ▸ .string high low body hbody
  case h_11 => cases h

/-! ## One header -/

theorem width_ne_outOfRange (kind : UInt8) (data : Bytes) :
    width kind data ≠ .error .outOfRange := by
  unfold width
  split
  case h_9 | h_10 =>
    match data with
    | [] | [_] => simp [sizedWidth_short]
    | high :: low :: data => simp [sizedWidth_cons]
  all_goals simp

variable {name : Bytes}

/-- A turn of the loop, once its name is in reach. -/
theorem header_cons (seen : List Bytes) {length : UInt8} (kind : UInt8) (data : Bytes)
    (hlen : name.length = length.toNat) (hne : name ≠ []) :
    header seen (length :: (name ++ kind :: data))
      = if name ∉ seen ∧ (name ∈ reserved → kind = 7) then
          match width kind data with
          | .error e => .error e
          | .ok n => if n ≤ data.length then .ok (name, data.drop n) else .error .invalid
        else .error .invalid := by
  have hfirst : byteAt (length :: (name ++ kind :: data)) 0 = .ok length := rfl
  have hrest : after (length :: (name ++ kind :: data)) 1 = .ok (name ++ kind :: data) := by
    simp [after]
  have hname : upTo (name ++ kind :: data) length.toNat = .ok name := by
    rw [← hlen, upTo_append]
  have hkind : byteAt (name ++ kind :: data) length.toNat = .ok kind := by
    rw [← hlen, byteAt_append]
  have hvalue : after (name ++ kind :: data) (length.toNat + 1) = .ok data := by
    have := after_append (name ++ [kind]) data
    rwa [append_assoc, length_append, hlen] at this
  have hpos : length.toNat ≠ 0 := by
    rw [← hlen]
    exact length_eq_zero_iff.not.2 hne
  have hfits : ¬ (length.toNat = 0 ∨ (name ++ kind :: data).length < length.toNat + 1) := by
    simp only [length_append, length_cons]
    omega
  simp only [header, hfirst, hrest, hname, hkind, hvalue, require, hfits, bind, Except.bind,
    not_false_eq_true, if_true]
  by_cases hseen : name ∈ seen
  · simp [hseen]
  by_cases htyped : name ∈ reserved ∧ kind ≠ 7
  · simp [hseen, htyped]
  have htyped' : name ∈ reserved → kind = 7 := by
    intro hr
    by_contra hk
    exact htyped ⟨hr, hk⟩
  simp only [hseen, htyped, not_false_eq_true, if_true]
  rw [if_pos ⟨trivial, htyped'⟩]
  cases hw : width kind data with
  | error e => rfl
  | ok n =>
    by_cases hn : n ≤ data.length
    · simp [hn, after, pure, Except.pure]
    · simp [hn, Nat.lt_of_not_le hn]

/-- A turn on the bytes of a header cuts it off, unless its name was seen or asks for
a string. -/
theorem header_encode (seen : List Bytes) (h : Header) (rest : Bytes) :
    header seen (h.encode ++ rest)
      = if h.name ∉ seen ∧ h.Typed then .ok (h.name, rest) else .error .invalid := by
  have hlen : h.name.length = (UInt8.ofNat h.name.length).toNat := by
    rw [UInt8.toNat_ofNat', Nat.mod_eq_of_lt h.name_lt]
  have hbytes : h.encode ++ rest
      = UInt8.ofNat h.name.length :: (h.name ++ h.kind :: (h.value ++ rest)) := by
    simp [Header.encode]
  rw [hbytes, header_cons seen _ _ hlen h.name_ne, width_append h.complete]
  by_cases hok : h.name ∉ seen ∧ h.Typed
  · rw [if_pos hok]
    exact (if_pos hok).trans (by simp)
  · rw [if_neg hok]
    exact if_neg hok

/-- A turn that does not refuse the input has a header before it. -/
theorem header_cases (seen : List Bytes) (hne : data ≠ []) :
    header seen data = .error .invalid ∨
      ∃ (h : Header) (rest : Bytes), data = h.encode ++ rest := by
  obtain ⟨length, data, rfl⟩ := exists_cons_of_ne_nil hne
  by_cases hfits : length.toNat = 0 ∨ data.length < length.toNat + 1
  · left
    have hrest : after (length :: data) 1 = .ok data := by simp [after]
    have hfirst : byteAt (length :: data) 0 = .ok length := rfl
    simp only [header, hfirst, hrest, require, hfits, not_true_eq_false, if_false,
      bind, Except.bind]
  · obtain ⟨hpos, hlong⟩ := not_or.1 hfits
    obtain ⟨name, kind, tail, rfl, hname⟩ :
        ∃ name kind tail, data = name ++ kind :: tail ∧ name.length = length.toNat := by
      obtain ⟨kind, tail, htail⟩ := exists_cons_of_ne_nil
        (show data.drop length.toNat ≠ [] by simp only [ne_eq, drop_eq_nil_iff]; omega)
      refine ⟨data.take length.toNat, kind, tail, ?_, length_take_of_le (by omega)⟩
      rw [← htail, take_append_drop]
    have hname' : name ≠ [] := by
      rintro rfl
      exact hpos hname.symm
    rw [header_cons seen kind tail hname hname']
    split
    · cases hw : width kind tail with
      | error e =>
        left
        cases e with
        | invalid => rfl
        | outOfRange => exact absurd hw (width_ne_outOfRange kind tail)
      | ok n =>
        by_cases hn : n ≤ tail.length
        · right
          have hlt : name.length < 256 := hname ▸ length.toNat_lt
          refine ⟨⟨name, kind, tail.take n, hname', hlt, complete_of_width hw hn⟩, tail.drop n, ?_⟩
          simp [Header.encode, hname]
        · exact .inl (if_neg hn)
    · exact .inl rfl

/-! ## Every header -/

variable {seen : List Bytes}

theorem header_eq_ok {rest : Bytes} :
    header seen data = .ok (name, rest) ↔ ∃ h : Header, data = h.encode ++ rest ∧
      h.name = name ∧ name ∉ seen ∧ h.Typed := by
  constructor
  · intro hok
    have hne : data ≠ [] := by
      rintro rfl
      cases hok
    rcases header_cases seen hne with hinv | ⟨h, tail, rfl⟩
    · rw [hinv] at hok
      cases hok
    · rw [header_encode] at hok
      split at hok
      · rename_i hcond
        obtain ⟨rfl, rfl⟩ : h.name = name ∧ tail = rest := by simpa using hok
        exact ⟨h, rfl, rfl, hcond⟩
      · cases hok
  · rintro ⟨h, rfl, rfl, hcond⟩
    rw [header_encode, if_pos hcond]

theorem header_ne_outOfRange (seen : List Bytes) (hne : data ≠ []) :
    header seen data ≠ .error .outOfRange := by
  intro hfault
  rcases header_cases seen hne with hinv | ⟨h, tail, rfl⟩
  · rw [hinv] at hfault
    cases hfault
  · rw [header_encode] at hfault
    split at hfault <;> cases hfault

theorem header_shrinks {rest : Bytes} (h : header seen data = .ok (name, rest)) :
    rest.length < data.length := by
  obtain ⟨hd, rfl, -⟩ := header_eq_ok.1 h
  simp only [Header.encode, length_append, length_cons]
  omega

/-- The loop, with the names seen so far. -/
def validate (seen : List Bytes) (data : Bytes) : Except Fault Unit :=
  if data.length = 0 then .ok ()
  else
    match _h : header seen data with
    | .error e => .error e
    | .ok (name, rest) => validate (name :: seen) rest
termination_by data.length
decreasing_by exact header_shrinks _h

/-- `ValidateHeaders`. -/
def validateHeaders (data : Bytes) : Except Fault Unit := validate [] data

/-- The byte strings accepted after some names: headers one after the other, with
names that differ from those and from each other. -/
def Accepted (seen : List Bytes) (data : Bytes) : Prop :=
  ∃ headers : List Header, data = headers.flatMap Header.encode ∧
    (headers.map Header.name).Nodup ∧ (∀ h ∈ headers, h.name ∉ seen) ∧ ∀ h ∈ headers, h.Typed

/-- What passes is a list of well-formed headers whose names are new. -/
theorem accepted_of_validate (hok : validate seen data = .ok ()) : Accepted seen data := by
  fun_induction validate seen data with
  | case1 seen data hnil =>
    rw [length_eq_zero_iff] at hnil
    exact ⟨[], hnil, by simp, by simp, by simp⟩
  | case2 => cases hok
  | case3 seen data hne name rest hturn ih =>
    obtain ⟨h, rfl, rfl, hseen, htyped⟩ := header_eq_ok.1 hturn
    obtain ⟨headers, rfl, hnodup, hfresh, htyped'⟩ := ih hok
    refine ⟨h :: headers, rfl, ?_, ?_, ?_⟩
    · refine nodup_cons.2 ⟨?_, hnodup⟩
      rw [mem_map]
      rintro ⟨h', hmem, hsame⟩
      exact hfresh h' hmem (hsame ▸ mem_cons_self)
    · refine forall_mem_cons.2 ⟨hseen, ?_⟩
      intro h' hmem hold
      exact hfresh h' hmem (mem_cons_of_mem _ hold)
    · exact forall_mem_cons.2 ⟨htyped, htyped'⟩

/-- Every encoding of typed headers with distinct new names passes. -/
theorem validate_headers (headers : List Header) (seen : List Bytes)
    (hnodup : (headers.map Header.name).Nodup) (hfresh : ∀ h ∈ headers, h.name ∉ seen)
    (htyped : ∀ h ∈ headers, h.Typed) :
    validate seen (headers.flatMap Header.encode) = .ok () := by
  induction headers generalizing seen with
  | nil => simp [validate]
  | cons h headers ih =>
    obtain ⟨hname, hnodup⟩ := nodup_cons.1 hnodup
    obtain ⟨hseen, hfresh⟩ := forall_mem_cons.1 hfresh
    obtain ⟨hkind, htyped⟩ := forall_mem_cons.1 htyped
    have hturn : header seen (h.encode ++ headers.flatMap Header.encode)
        = .ok (h.name, headers.flatMap Header.encode) :=
      header_eq_ok.2 ⟨h, rfl, rfl, hseen, hkind⟩
    rw [flatMap_cons, validate, if_neg (by simp [Header.encode])]
    split
    · rename_i e herr
      rw [hturn] at herr
      cases herr
    · rename_i name rest hok
      rw [hturn] at hok
      obtain ⟨rfl, rfl⟩ : h.name = name ∧ _ = rest := by simpa using hok
      refine ih _ hnodup ?_ htyped
      intro h' hmem hold
      rcases mem_cons.1 hold with hsame | hold
      · exact hname (hsame ▸ mem_map_of_mem hmem)
      · exact hfresh h' hmem hold

/-- No read of the validator is out of range. -/
theorem validate_ne_outOfRange (seen : List Bytes) (data : Bytes) :
    validate seen data ≠ .error .outOfRange := by
  fun_induction validate seen data with
  | case1 => simp
  | case2 seen data hne e hturn =>
    rintro ⟨⟩
    exact header_ne_outOfRange seen (length_eq_zero_iff.not.1 hne) hturn
  | case3 _ _ _ _ _ _ ih => exact ih

/-- `ValidateHeaders` accepts a byte string exactly when it is a concatenation of
complete headers of known value types with non-empty names, the names pairwise distinct
and the reserved ones carrying strings, and it never reads past the end of the input. -/
theorem validateHeaders_exact (data : Bytes) :
    validateHeaders data ≠ .error .outOfRange ∧
    (validateHeaders data = .ok () ↔ ∃ headers : List Header,
      data = headers.flatMap Header.encode ∧ (headers.map Header.name).Nodup ∧
      ∀ h ∈ headers, h.name ∈ reserved → h.kind = 7) := by
  refine ⟨validate_ne_outOfRange [] data, ?_, ?_⟩
  · intro hok
    obtain ⟨headers, hdata, hnodup, -, htyped⟩ := accepted_of_validate hok
    exact ⟨headers, hdata, hnodup, htyped⟩
  · rintro ⟨headers, rfl, hnodup, htyped⟩
    exact validate_headers headers [] hnodup (fun _ _ => not_mem_nil) htyped

end Olp.Aws
