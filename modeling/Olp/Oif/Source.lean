import Olp.Text
import Olp.Checked
import Olp.Agreement

/-!
# Source documents

The model of `oif/source.go`: a JSON parser that keeps, for every value, the text it was
written as, with limits on bytes, nesting and values; and the lookup of JSON pointers.

A Go string is a list of symbols, as `range` reads it: characters, and bytes that are not
part of one.  A document is checked to be valid UTF-8 before it is parsed, so that its text
is a list of characters.  Where the parser keeps an offset, the model keeps the text that is
left; the offset of an error is recovered from it.
-/

namespace Olp.Oif

/-! ## Strings -/

/-- A symbol of a Go string. -/
inductive Sym where
  | char (c : Char)
  | stray (b : UInt8)
deriving DecidableEq, Repr

abbrev Str := List Sym

def Sym.bytes : Sym → List UInt8
  | .char c => String.utf8EncodeChar c
  | .stray b => [b]

namespace Str

def ofText (t : List Char) : Str := t.map .char

/-- The text of a string that is valid UTF-8. -/
def text? : Str → Option (List Char)
  | [] => some []
  | .char c :: s => (text? s).map (c :: ·)
  | .stray _ :: _ => none

def bytes (s : Str) : List UInt8 := s.flatMap Sym.bytes

@[simp] theorem ofText_nil : ofText [] = [] := rfl

@[simp] theorem ofText_cons (c : Char) (t : List Char) : ofText (c :: t) = .char c :: ofText t :=
  rfl

@[simp] theorem ofText_append (t u : List Char) : ofText (t ++ u) = ofText t ++ ofText u :=
  List.map_append

theorem ofText_injective : Function.Injective ofText :=
  List.map_injective_iff.mpr fun _ _ h => Sym.char.inj h

@[simp] theorem text?_ofText (t : List Char) : text? (ofText t) = some t := by
  induction t with
  | nil => rfl
  | cons c t ih => simp [text?, ih]

theorem text?_eq_some {s : Str} {t : List Char} : text? s = some t ↔ s = ofText t := by
  refine ⟨fun h => ?_, fun h => h ▸ text?_ofText t⟩
  induction s generalizing t with
  | nil =>
    cases h
    rfl
  | cons x s ih =>
    cases x with
    | stray b => cases h
    | char c =>
      obtain ⟨u, hu, rfl⟩ := Option.map_eq_some_iff.mp h
      rw [ih hu, ofText_cons]

end Str

/-! ## Limits, errors and values -/

inductive Kind where
  | absent
  | null
  | boolean
  | number
  | string
  | array
  | object
deriving DecidableEq, Repr

/-- Zero selects the default, as a negative limit does in the source. -/
structure Limits where
  maxBytes : ℕ := 0
  maxDepth : ℕ := 0
  maxNodes : ℕ := 0
deriving DecidableEq, Repr

def Limits.effective (l : Limits) : Limits where
  maxBytes := if l.maxBytes = 0 then 64 * 2 ^ 20 else l.maxBytes
  maxDepth := if l.maxDepth = 0 then 128 else l.maxDepth
  maxNodes := if l.maxNodes = 0 then 2 ^ 16 else l.maxNodes

/-- The codes of `SourceError`. -/
inductive SourceCode where
  | byteLimit
  | invalidUtf8
  | trailingData
  | depthLimit
  | nodeLimit
  | unexpectedEnd
  | duplicateKey
  | expectedColon
  | expectedObjectEnd
  | expectedArrayEnd
  | invalidLiteral
  | invalidNumber
  | invalidUnicodeEscape
  | expectedString
  | stringControlCharacter
  | invalidEscape
  | unpairedSurrogate
  | unterminatedString
deriving DecidableEq, Repr

structure SourceError where
  code : SourceCode
  offset : ℕ := 0
deriving DecidableEq, Repr

abbrev Fault := SourceCode × List Char

/-- A value and the text it was written as. -/
inductive Node where
  | scalar (kind : Kind) (raw : List Char)
  | array (raw : List Char) (elements : List Node)
  | object (raw : List Char) (members : List (List Char × Node))

namespace Node

def kind : Node → Kind
  | .scalar k _ => k
  | .array _ _ => .array
  | .object _ _ => .object

def raw : Node → List Char
  | .scalar _ raw | .array raw _ | .object raw _ => raw

end Node

/-! ## Tokens -/

def isSpace (c : Char) : Bool := c == ' ' || c == '\n' || c == '\r' || c == '\t'

def space (t : List Char) : List Char := t.dropWhile isSpace

/-- The text between two positions, given by what is left at each. -/
def upTo (t r : List Char) : List Char := t.take (t.length - r.length)

def literal (s t : List Char) : Except Fault (List Char) :=
  if s.isPrefixOf t then .ok (t.drop s.length) else .error (.invalidLiteral, t)

def digits (t : List Char) : List Char := t.dropWhile Char.isDigit

/-- At least one digit. -/
def someDigits (t : List Char) : Except Fault (List Char) :=
  if (digits t).length = t.length then .error (.invalidNumber, t) else .ok (digits t)

/-- `take`, when it does not matter whether it did. -/
def skip (c : Char) : List Char → List Char
  | [] => []
  | d :: t => if d = c then t else d :: t

def whole : List Char → Except Fault (List Char)
  | [] => .error (.invalidNumber, [])
  | c :: t =>
    if c = '0' then .ok t
    else if c < '1' ∨ '9' < c then .error (.invalidNumber, c :: t)
    else .ok (digits (c :: t))

def fraction : List Char → Except Fault (List Char)
  | [] => .ok []
  | c :: t => if c = '.' then someDigits t else .ok (c :: t)

/-- The sign of an exponent. -/
def sign : List Char → List Char
  | [] => []
  | c :: t => if c = '+' then t else skip '-' (c :: t)

def exponent : List Char → Except Fault (List Char)
  | [] => .ok []
  | c :: t => if c = 'e' ∨ c = 'E' then someDigits (sign t) else .ok (c :: t)

def number (t : List Char) : Except Fault (List Char) := do
  let t ← whole (skip '-' t)
  let t ← fraction t
  exponent t

def hexDigit (c : Char) : Option ℕ :=
  if '0' ≤ c ∧ c ≤ '9' then some (c.toNat - 48)
  else if 'a' ≤ c ∧ c ≤ 'f' then some (c.toNat - 87)
  else if 'A' ≤ c ∧ c ≤ 'F' then some (c.toNat - 55)
  else none

/-- The value of four hexadecimal digits. -/
def hex (a b c d : Char) : Option ℕ := do
  let a ← hexDigit a
  let b ← hexDigit b
  let c ← hexDigit c
  let d ← hexDigit d
  some (((a * 16 + b) * 16 + c) * 16 + d)

def isHigh (n : ℕ) : Bool := 0xD800 ≤ n && n ≤ 0xDBFF

def isLow (n : ℕ) : Bool := 0xDC00 ≤ n && n ≤ 0xDFFF

/-- The character of an escape of one letter. -/
def simpleEscape : Char → Option Char
  | '"' => some '"'
  | '\\' => some '\\'
  | '/' => some '/'
  | 'b' => some '\x08'
  | 'f' => some '\x0c'
  | 'n' => some '\n'
  | 'r' => some '\r'
  | 't' => some '\t'
  | _ => none

/-- The rest of a string after its first quotation mark; a byte that the source reads with
`plainEnd` is a character that is passed over. -/
def stringTail : List Char → Except Fault (List Char)
  | [] => .error (.unterminatedString, [])
  | c :: t =>
    if c = '"' then .ok t
    else if c.toNat < 0x20 then .error (.stringControlCharacter, t)
    else if c ≠ '\\' then stringTail t
    else match t with
      | [] => .error (.invalidEscape, [])
      | e :: t =>
        if e = 'u' then match t with
          | a :: b :: c :: d :: u =>
            match hex a b c d with
            | none => .error (.invalidUnicodeEscape, t)
            | some n =>
              if isLow n then .error (.unpairedSurrogate, u)
              else if isHigh n then match u with
                | '\\' :: 'u' :: a :: b :: c :: d :: v =>
                  match hex a b c d with
                  | none => .error (.invalidUnicodeEscape, a :: b :: c :: d :: v)
                  | some low =>
                    if isLow low then stringTail v else .error (.unpairedSurrogate, v)
                | '\\' :: 'u' :: v => .error (.invalidUnicodeEscape, v)
                | '\\' :: v => .error (.unpairedSurrogate, v)
                | v => .error (.unpairedSurrogate, v)
              else stringTail u
          | _ => .error (.invalidUnicodeEscape, t)
        else if (simpleEscape e).isSome then stringTail t
        else .error (.invalidEscape, t)

def string : List Char → Except Fault (List Char)
  | [] => .error (.expectedString, [])
  | c :: t => if c = '"' then stringTail t else .error (.expectedString, c :: t)

/-- The text that the inside of an accepted string stands for (`json.Unmarshal`). -/
def unquote : List Char → List Char
  | [] => []
  | c :: t =>
    if c ≠ '\\' then c :: unquote t
    else match t with
      | [] => []
      | e :: t =>
        if e = 'u' then match t with
          | a :: b :: c :: d :: u =>
            let n := (hex a b c d).getD 0
            if isHigh n then match u with
              | _ :: _ :: a :: b :: c :: d :: v =>
                let low := (hex a b c d).getD 0
                .ofNat (0x10000 + (n - 0xD800) * 0x400 + (low - 0xDC00)) :: unquote v
              | _ => []
            else .ofNat n :: unquote u
          | _ => []
        else ((simpleEscape e).getD e) :: unquote t

/-- The name of a member, from its raw text with the quotation marks. -/
def memberName (raw : List Char) : List Char :=
  let name := (raw.drop 1).dropLast
  if '\\' ∈ name then unquote name else name

/-! ## The parser -/

/-- The text that is left, and the number of values met so far. -/
structure Cursor where
  rest : List Char
  nodes : ℕ

/-- The loop of a container after its first bracket and white space: items up to the closing
bracket.  An item is read in the light of those before it.  The first argument bounds the
number of items; every item is followed by a character, so the text that is left does. -/
def sequence {α : Type} (item : List α → Cursor → Except Fault (α × Cursor)) (close : Char)
    (unclosed : SourceCode) : ℕ → List α → Cursor → Except Fault (List α × Cursor)
  | 0, _, s => .error (unclosed, s.rest)
  | fuel + 1, done, s => do
      let (a, s) ← item done s
      match space s.rest with
      | [] => .error (unclosed, [])
      | c :: t =>
        if c = close then .ok (done ++ [a], ⟨t, s.nodes⟩)
        else if c = ',' then sequence item close unclosed fuel (done ++ [a]) ⟨t, s.nodes⟩
        else .error (unclosed, c :: t)

/-- A container after its first bracket. -/
def container {α : Type} (item : List α → Cursor → Except Fault (α × Cursor)) (close : Char)
    (unclosed : SourceCode) (s : Cursor) : Except Fault (List α × Cursor) :=
  match space s.rest with
  | [] => sequence item close unclosed 1 [] ⟨[], s.nodes⟩
  | c :: t =>
    if c = close then .ok ([], ⟨t, s.nodes⟩)
    else sequence item close unclosed ((c :: t).length + 1) [] ⟨c :: t, s.nodes⟩

/-- A member of an object, whose names so far are those of `done`. -/
def member (child : Cursor → Except Fault (Node × Cursor)) (done : List (List Char × Node))
    (s : Cursor) : Except Fault ((List Char × Node) × Cursor) := do
  let t := space s.rest
  let u ← string t
  let name := memberName (upTo t u)
  require (∀ m ∈ done, m.1 ≠ name) (.duplicateKey, u)
  match space u with
  | [] => .error (.expectedColon, [])
  | c :: v =>
    if c = ':' then do
      let (n, s) ← child ⟨v, s.nodes⟩
      return ((name, n), s)
    else .error (.expectedColon, c :: v)

def scalar (c : Char) (t : List Char) : Except Fault (Kind × List Char) :=
  match c with
  | '"' => (string t).map (Kind.string, ·)
  | 'n' => (literal ['n', 'u', 'l', 'l'] t).map (Kind.null, ·)
  | 't' => (literal ['t', 'r', 'u', 'e'] t).map (Kind.boolean, ·)
  | 'f' => (literal ['f', 'a', 'l', 's', 'e'] t).map (Kind.boolean, ·)
  | _ => (number t).map (Kind.number, ·)

/-- `parser.value`, by the number of levels of nesting that are left. -/
def value (maxNodes : ℕ) : ℕ → Cursor → Except Fault (Node × Cursor)
  | 0, s => .error (.depthLimit, space s.rest)
  | levels + 1, s =>
    if maxNodes ≤ s.nodes then .error (.nodeLimit, space s.rest)
    else match space s.rest with
      | [] => .error (.unexpectedEnd, [])
      | c :: t =>
        if c = '\x7b' then do
          let (ms, s) ← container (member (value maxNodes levels)) '\x7d' .expectedObjectEnd
            ⟨t, s.nodes + 1⟩
          return (.object (upTo (c :: t) s.rest) ms, s)
        else if c = '[' then do
          let (ns, s) ← container (fun _ => value maxNodes levels) ']' .expectedArrayEnd
            ⟨t, s.nodes + 1⟩
          return (.array (upTo (c :: t) s.rest) ns, s)
        else do
          let (k, r) ← scalar c (c :: t)
          return (.scalar k (upTo (c :: t) r), ⟨r, s.nodes + 1⟩)

def parseText (l : Limits) (t : List Char) : Except Fault Node := do
  let (n, s) ← value l.maxNodes (l.maxDepth + 1) ⟨t, 0⟩
  require (space s.rest = []) (.trailingData, space s.rest)
  return n

/-! ## Documents -/

/-- A document that was parsed: its text, and the value read from it within its limits. -/
structure Document where
  text : List Char
  limits : Limits
  root : Node
  parsed : parseText limits text = .ok root

def parseJSON (data : Str) (limits : Limits) : Except SourceError Document :=
  let l := limits.effective
  if l.maxBytes < data.bytes.length then .error ⟨.byteLimit, 0⟩
  else match data.text? with
    | none => .error ⟨.invalidUtf8, 0⟩
    | some t =>
      match h : parseText l t with
      | .error (code, r) =>
        .error ⟨code, data.bytes.length - (Str.ofText r).bytes.length⟩
      | .ok n => .ok ⟨t, l, n, h⟩

/-! ## Pointers -/

/-- The index that a reference token is, which has no leading zero. -/
def index (name : Str) : Option ℕ := do
  let t ← name.text?
  if t = [] ∨ (1 < t.length ∧ t.head? = some '0') ∨ ¬Text.IsDigits t then none
  else some (Text.value t)

def Node.child : Node → Str → Option Node
  | .scalar _ _, _ => none
  | .array _ ns, name => (index name).bind (ns[·]?)
  | .object _ ms, name => (ms.find? fun m => Str.ofText m.1 = name).map Prod.snd

/-- The reference token that a part of a pointer stands for. -/
def decode : Str → Option Str
  | [] => some []
  | x :: s =>
    if x ≠ .char '~' then (decode s).map (x :: ·)
    else match s with
      | [] => none
      | y :: s =>
        if y = .char '0' then (decode s).map (Sym.char '~' :: ·)
        else if y = .char '1' then (decode s).map (Sym.char '/' :: ·)
        else none

/-- `Document.Lookup`. -/
def Document.lookup (d : Document) : Str → Option Node
  | [] => some d.root
  | x :: s =>
    if x ≠ .char '/' then none
    else (s.splitOn (Sym.char '/')).foldlM (fun n part => (decode part).bind n.child) d.root

def escape (name : Str) : Str :=
  (name.flatMap fun x => if x = .char '~' then [Sym.char '~', Sym.char '0'] else [x]).flatMap
    fun x => if x = .char '/' then [Sym.char '~', Sym.char '1'] else [x]

def pointer (parent name : Str) : Str := parent ++ Sym.char '/' :: escape name

end Olp.Oif
