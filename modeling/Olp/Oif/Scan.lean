import Olp.Lanes
import Olp.Oif.Source

/-!
# The parser on bytes

The parser of `oif/source.go` as it reads its input, byte by byte and, inside strings, eight bytes
at a time: the positions it records for every value (`node.start`, `node.end`), and the text it
decodes from a string value (`Value.Text`).  A position is the number of bytes before it; where the
source moves `p.at` forward, the model keeps the bytes that are left.
-/

namespace Olp.Oif.Scan

abbrev Bytes := List UInt8

/-- A code, and the bytes that are left where the parser stopped. -/
abbrev Stop := SourceCode × Bytes

def byte (c : Char) : UInt8 := c.toNat.toUInt8

/-- The encoding of a text, which `string(runes)` writes. -/
def utf8 (t : List Char) : Bytes := t.flatMap String.utf8EncodeChar

/-- `utf8.Valid`. -/
def valid (s : Bytes) : Bool := s.toByteArray.validateUTF8

def textOf (s : Bytes) : List Char := ((String.fromUTF8? s.toByteArray).map String.toList).getD []

/-! ## Tokens -/

def isSpace (b : UInt8) : Bool :=
  b == byte ' ' || b == byte '\n' || b == byte '\r' || b == byte '\t'

def space (s : Bytes) : Bytes := s.dropWhile isSpace

def take (c : Char) : Bytes → Option Bytes
  | [] => none
  | b :: s => if b = byte c then some s else none

def literal (t : List Char) (s : Bytes) : Except Stop Bytes :=
  if (t.map byte).isPrefixOf s then .ok (s.drop t.length) else .error (.invalidLiteral, s)

def isDigit (b : UInt8) : Bool := byte '0' ≤ b && b ≤ byte '9'

def digits (s : Bytes) : Bytes := s.dropWhile isDigit

/-- `p.digits() == 0` fails. -/
def someDigits (s : Bytes) : Except Stop Bytes :=
  if (digits s).length = s.length then .error (.invalidNumber, s) else .ok (digits s)

/-- A zero, or digits of which the first is not zero. -/
def whole : Bytes → Except Stop Bytes
  | [] => .error (.invalidNumber, [])
  | b :: s =>
    if b = byte '0' then .ok s
    else if b < byte '1' || byte '9' < b then .error (.invalidNumber, b :: s)
    else .ok (digits (b :: s))

def fraction (s : Bytes) : Except Stop Bytes :=
  match take '.' s with
  | some s => someDigits s
  | none => .ok s

def exponent (s : Bytes) : Except Stop Bytes :=
  match (take 'e' s).or (take 'E' s) with
  | some s => someDigits ((take '+' s).getD ((take '-' s).getD s))
  | none => .ok s

def number (s : Bytes) : Except Stop Bytes := do
  let s ← whole ((take '-' s).getD s)
  let s ← fraction s
  exponent s

def hexDigit (b : UInt8) : Option ℕ :=
  if byte '0' ≤ b ∧ b ≤ byte '9' then some (b.toNat - 48)
  else if byte 'a' ≤ b ∧ b ≤ byte 'f' then some (b.toNat - 87)
  else if byte 'A' ≤ b ∧ b ≤ byte 'F' then some (b.toNat - 55)
  else none

/-- `strconv.ParseUint` of four bytes to base 16. -/
def parseHex (a b c d : UInt8) : Option ℕ := do
  let a ← hexDigit a
  let b ← hexDigit b
  let c ← hexDigit c
  let d ← hexDigit d
  some (((a * 16 + b) * 16 + c) * 16 + d)

def hex : Bytes → Except Stop (ℕ × Bytes)
  | a :: b :: c :: d :: s =>
    match parseHex a b c d with
    | some n => .ok (n, s)
    | none => .error (.invalidUnicodeEscape, a :: b :: c :: d :: s)
  | s => .error (.invalidUnicodeEscape, s)

/-! ## Strings -/

def isPlain (b : UInt8) : Bool := !(b == byte '"' || b == byte '\\' || b < 0x20)

/-- The test of a word for a byte below `0x20`, a quotation mark or a backslash. -/
def flagged (w : UInt64) : Bool :=
  let quote := w ^^^ (Lanes.ones * 0x22)
  let slash := w ^^^ (Lanes.ones * 0x5C)
  (Lanes.wrapped w (Lanes.ones * 0x20) ||| Lanes.wrapped quote Lanes.ones |||
    Lanes.wrapped slash Lanes.ones) &&& Lanes.highs != 0

/-- What is left from the first byte that a string cannot hold as it is. -/
def plainEnd : Bytes → Bytes
  | b0 :: b1 :: b2 :: b3 :: b4 :: b5 :: b6 :: b7 :: s =>
    if flagged (Lanes.pack b0 b1 b2 b3 b4 b5 b6 b7) then
      (b0 :: b1 :: b2 :: b3 :: b4 :: b5 :: b6 :: b7 :: s).dropWhile isPlain
    else plainEnd s
  | s => s.dropWhile isPlain

/-- After the first half of a pair of surrogates: its second half, and `next` from there. -/
def pairEnd (next : Bytes → Except Stop Bytes) (s : Bytes) : Except Stop Bytes :=
  match take '\\' s with
  | none => .error (.unpairedSurrogate, s)
  | some s =>
    match take 'u' s with
    | none => .error (.unpairedSurrogate, s)
    | some s => do
        let (low, s) ← hex s
        if isLow low then next s else .error (.unpairedSurrogate, s)

def simple : List Char := ['"', '\\', '/', 'b', 'f', 'n', 'r', 't']

/-- After a backslash: the rest of the escape, and `next` from there. -/
def escapeEnd (next : Bytes → Except Stop Bytes) : Bytes → Except Stop Bytes
  | [] => .error (.invalidEscape, [])
  | c :: s =>
    if c ∈ simple.map byte then next s
    else if c = byte 'u' then do
      let (n, s) ← hex s
      if isLow n then .error (.unpairedSurrogate, s)
      else if isHigh n then pairEnd next s
      else next s
    else .error (.invalidEscape, s)

/-- The loop of `parser.string` after the first quotation mark.  The first argument bounds the
number of rounds, each of which consumes a byte. -/
def stringLoop : ℕ → Bytes → Except Stop Bytes
  | 0, s => .error (.unterminatedString, s)
  | fuel + 1, s =>
    match plainEnd s with
    | [] => .error (.unterminatedString, [])
    | c :: s =>
      if c = byte '"' then .ok s
      else if c < 0x20 then .error (.stringControlCharacter, s)
      else if c ≠ byte '\\' then stringLoop fuel s
      else escapeEnd (stringLoop fuel) s

def string (s : Bytes) : Except Stop Bytes :=
  match take '"' s with
  | none => .error (.expectedString, s)
  | some s => stringLoop (s.length + 1) s

/-- The name of a member; `json.Unmarshal` decodes one with an escape in it. -/
def memberName (raw : Bytes) : Bytes :=
  let name := (raw.drop 1).dropLast
  if byte '\\' ∈ name then utf8 (unquote (textOf name)) else name

/-! ## Values -/

/-- A value and where it stands in the input. -/
inductive Entry where
  | scalar (kind : Kind) (start stop : ℕ)
  | array (start stop : ℕ) (elements : List Entry)
  | object (start stop : ℕ) (members : List (Bytes × Entry))

namespace Entry

def kind : Entry → Kind
  | .scalar k _ _ => k
  | .array _ _ _ => .array
  | .object _ _ _ => .object

def start : Entry → ℕ
  | .scalar _ a _ | .array a _ _ | .object a _ _ => a

def stop : Entry → ℕ
  | .scalar _ _ b | .array _ b _ | .object _ b _ => b

def raw (data : Bytes) (e : Entry) : Bytes := (data.drop e.start).take (e.stop - e.start)

end Entry

structure Pos where
  rest : Bytes
  nodes : ℕ

/-- The loop of a container after its first bracket and white space, as in `Oif.sequence`. -/
def sequence {α : Type} (item : List α → Pos → Except Stop (α × Pos)) (close : Char)
    (unclosed : SourceCode) : ℕ → List α → Pos → Except Stop (List α × Pos)
  | 0, _, s => .error (unclosed, s.rest)
  | fuel + 1, done, s => do
      let (a, s) ← item done s
      let r := space s.rest
      match take close r with
      | some t => .ok (done ++ [a], ⟨t, s.nodes⟩)
      | none =>
        match take ',' r with
        | some t => sequence item close unclosed fuel (done ++ [a]) ⟨t, s.nodes⟩
        | none => .error (unclosed, r)

def container {α : Type} (item : List α → Pos → Except Stop (α × Pos)) (close : Char)
    (unclosed : SourceCode) (s : Pos) : Except Stop (List α × Pos) :=
  let r := space s.rest
  match take close r with
  | some t => .ok ([], ⟨t, s.nodes⟩)
  | none => sequence item close unclosed (r.length + 1) [] ⟨r, s.nodes⟩

def member (child : Pos → Except Stop (Entry × Pos)) (done : List (Bytes × Entry)) (s : Pos) :
    Except Stop ((Bytes × Entry) × Pos) := do
  let t := space s.rest
  let u ← string t
  let name := memberName (t.take (t.length - u.length))
  require (∀ m ∈ done, m.1 ≠ name) (.duplicateKey, u)
  let v := space u
  match take ':' v with
  | some v => do
      let (n, s) ← child ⟨v, s.nodes⟩
      return ((name, n), s)
  | none => .error (.expectedColon, v)

/-- What a value that opens no container is. -/
def scalar (b : UInt8) (s : Bytes) : Except Stop (Kind × Bytes) :=
  if b = byte '"' then (string s).map (Kind.string, ·)
  else if b = byte 'n' then (literal ['n', 'u', 'l', 'l'] s).map (Kind.null, ·)
  else if b = byte 't' then (literal ['t', 'r', 'u', 'e'] s).map (Kind.boolean, ·)
  else if b = byte 'f' then (literal ['f', 'a', 'l', 's', 'e'] s).map (Kind.boolean, ·)
  else (number s).map (Kind.number, ·)

/-- `parser.value` on an input of `size` bytes, by the number of levels of nesting that are left. -/
def value (size maxNodes : ℕ) : ℕ → Pos → Except Stop (Entry × Pos)
  | 0, s => .error (.depthLimit, space s.rest)
  | levels + 1, s =>
    if maxNodes ≤ s.nodes then .error (.nodeLimit, space s.rest)
    else match space s.rest with
      | [] => .error (.unexpectedEnd, [])
      | b :: t =>
        let start := size - (b :: t).length
        if b = byte '\x7b' then do
          let (ms, s) ← container (member (value size maxNodes levels)) '\x7d'
            .expectedObjectEnd ⟨t, s.nodes + 1⟩
          return (.object start (size - s.rest.length) ms, s)
        else if b = byte '[' then do
          let (ns, s) ← container (fun _ => value size maxNodes levels) ']'
            .expectedArrayEnd ⟨t, s.nodes + 1⟩
          return (.array start (size - s.rest.length) ns, s)
        else do
          let (k, r) ← scalar b (b :: t)
          return (.scalar k start (size - r.length), ⟨r, s.nodes + 1⟩)

/-- `Document`: the input and the value at its root. -/
structure Document where
  data : Bytes
  limits : Limits
  root : Entry

def parseJSON (data : Bytes) (limits : Limits) : Except SourceError Document :=
  let l := limits.effective
  let fail : Stop → SourceError := fun e => ⟨e.1, data.length - e.2.length⟩
  if l.maxBytes < data.length then .error ⟨.byteLimit, 0⟩
  else if valid data = false then .error ⟨.invalidUtf8, 0⟩
  else match value data.length l.maxNodes (l.maxDepth + 1) ⟨data, 0⟩ with
    | .error e => .error (fail e)
    | .ok (root, s) =>
      if space s.rest = [] then .ok ⟨data, l, root⟩
      else .error (fail (.trailingData, space s.rest))

/-! ## The text of a string -/

/-- `hexRune`. -/
def hexRune : Bytes → ℕ
  | [a, b, c, d] => (parseHex a b c d).getD 0
  | _ => 0

/-- `utf16.IsSurrogate`. -/
def isSurrogate (r : ℕ) : Bool := isHigh r || isLow r

/-- `utf16.DecodeRune`. -/
def decodeRune (high low : ℕ) : ℕ :=
  if isHigh high && isLow low then (high - 0xD800) * 0x400 + (low - 0xDC00) + 0x10000 else 0xFFFD

/-- `strings.Builder.WriteRune`, for a number that is not a surrogate. -/
def writeRune (r : ℕ) : Bytes := String.utf8EncodeChar (.ofNat r)

/-- The byte of an escape of one letter. -/
def escaped (c : UInt8) : UInt8 :=
  if c = byte 'b' then 0x08
  else if c = byte 'f' then 0x0C
  else if c = byte 'n' then 0x0A
  else if c = byte 'r' then 0x0D
  else if c = byte 't' then 0x09
  else c

/-- An escape of the inside of a string, and `next` after it; `none` where the source would read
past the end. -/
def decodeEscape (next : Bytes → Option Bytes) : Bytes → Option Bytes
  | [] => some []
  | [_] => none
  | _ :: c :: body =>
    if c = byte 'u' then
      if body.length < 4 then none
      else
        let r := hexRune (body.take 4)
        let body := body.drop 4
        if isSurrogate r then
          if body.length < 6 then none
          else
            let low := hexRune ((body.drop 2).take 4)
            (next (body.drop 6)).map (writeRune (decodeRune r low) ++ ·)
        else (next body).map (writeRune r ++ ·)
    else (next body).map ([escaped c] ++ ·)

/-- The loop of `Value.text`, which looks for the next backslash (`strings.IndexByte`). -/
def textLoop : ℕ → Bytes → Option Bytes
  | 0, _ => none
  | fuel + 1, body =>
    (decodeEscape (textLoop fuel) (body.dropWhile (· != byte '\\'))).map
      (body.takeWhile (· != byte '\\') ++ ·)

/-- `Value.Text`. -/
def Entry.text (data : Bytes) (e : Entry) : Option Bytes :=
  if e.kind = .string then
    let raw := e.raw data
    textLoop raw.length (raw.drop 1).dropLast
  else none

end Olp.Oif.Scan
