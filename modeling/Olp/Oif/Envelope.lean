import Mathlib.Data.List.Sort
import Olp.Oif.Source

/-!
# Envelopes and their preparation

The model of `oif/envelope.go` and `oif/registry.go`: overlays of changes on a source document,
which are rendered to text and parsed again; the provenance that an envelope keeps of them;
and the preparation of an envelope for its own dialect, which lets through only changes that an
identity rule of the registry covers.

Of a descriptor the model keeps the operation and the dialect, which is all that is read here.
-/

namespace Olp.Oif

structure Identity where
  id : Str
  revision : Str
deriving DecidableEq, Repr

inductive Origin where
  | empty
  | caller
  | providerDefault
  | modelDefault
  | operationDefault
  | identityBinding
  | resourceBinding
  | transportOption
  | qualifiedMapping
  | explicitTransform
  | transformedMapping
  | other (name : Str)
deriving DecidableEq, Repr

structure Descriptor where
  operation : Identity
  dialect : Identity
deriving DecidableEq, Repr

/-- An overlay at a pointer: a JSON text, or the removal of a member. -/
structure Change where
  pointer : Str
  value : Str
  remove : Bool := false
  origin : Origin
  reason : Str
deriving DecidableEq, Repr

structure Provenance where
  pointer : Str
  origin : Origin
  reason : Str
deriving DecidableEq, Repr

/-- The errors of envelopes, by their messages. -/
inductive EnvelopeError where
  | requestRequiresIdentities
  | overlayExceedsNodeLimit
  | overlayExceedsByteLimit
  | overlayRequiresProvenance
  | duplicateOverlayPath
  | invalidOverlayPointer
  | overlayParentMissing
  | overlayChangesArray
  | overlayRemovalMissing
  | invalidPointerEscape
  | cannotRemoveDocument
  | overlappingOverlayPaths
  | source (e : SourceError)
  | identityRequiresSameContract
  | requestOutsideContract
  | overlayOutsideContract
  | operationRequiresRevision
  | duplicateOperation
  | dialectRequiresRevision
  | unregisteredOperation
  | duplicateBinding
  | ruleAuthorizesTransformation
  | unregisteredContract
deriving DecidableEq, Repr

def parse (data : Str) (l : Limits) : Except EnvelopeError Document :=
  (parseJSON data l).mapError .source

/-! ## Strings -/

/-- The string up to the last solidus, and the string after it. -/
def lastSlash : Str → Option (Str × Str)
  | [] => none
  | x :: s =>
    match lastSlash s with
    | some (parent, last) => some (x :: parent, last)
    | none => if x = .char '/' then some ([], s) else none

/-- The string up to each solidus. -/
def ancestors : Str → List Str
  | [] => []
  | x :: s => (if x = .char '/' then [[]] else []) ++ (ancestors s).map (x :: ·)

/-- Every tilde is followed by a zero or a one. -/
def escapesValid : Str → Bool
  | [] => true
  | x :: s =>
    if x ≠ .char '~' then escapesValid s
    else match s with
      | [] => false
      | y :: s => (y = .char '0' || y = .char '1') && escapesValid s

/-- `strings.ReplaceAll` of a pair of symbols by one symbol. -/
def replacePair (a b new : Sym) : Str → Str
  | x :: y :: s => if x = a ∧ y = b then new :: replacePair a b new s
      else x :: replacePair a b new (y :: s)
  | s => s

def unescape (s : Str) : Option Str :=
  if escapesValid s then
    some (replacePair (.char '~') (.char '0') (.char '~')
      (replacePair (.char '~') (.char '1') (.char '/') s))
  else none

def hexChar (n : ℕ) : Char := ['0', '1', '2', '3', '4', '5', '6', '7', '8', '9',
  'a', 'b', 'c', 'd', 'e', 'f'].getD n '0'

/-- How `json.Marshal` writes a symbol of a string. -/
def marshalSym : Sym → List Char
  | .stray _ => ['\\', 'u', 'f', 'f', 'f', 'd']
  | .char c =>
    if c = '\\' ∨ c = '"' then ['\\', c]
    else if c = '\x08' then ['\\', 'b']
    else if c = '\x0c' then ['\\', 'f']
    else if c = '\n' then ['\\', 'n']
    else if c = '\r' then ['\\', 'r']
    else if c = '\t' then ['\\', 't']
    else if c.toNat < 0x20 ∨ c = '<' ∨ c = '>' ∨ c = '&' then
      ['\\', 'u', '0', '0', hexChar (c.toNat / 16), hexChar (c.toNat % 16)]
    else if c.toNat = 0x2028 ∨ c.toNat = 0x2029 then
      ['\\', 'u', '2', '0', '2', hexChar (c.toNat % 16)]
    else [c]

def marshal (name : Str) : List Char := '"' :: (name.flatMap marshalSym ++ ['"'])

/-! ## Overlays -/

/-- The changes of an overlay by pointer, and their pointers in order. -/
structure Overlay where
  changes : List Change
  paths : List Str

namespace Overlay

def find (o : Overlay) (path : Str) : Option Change := o.changes.find? (·.pointer = path)

/-- Some change is below a path. -/
def below (o : Overlay) (path : Str) : Bool :=
  o.paths.any fun p => (path ++ [Sym.char '/']).isPrefixOf p

/-- The members that the changes add to the object at a path, whose own names are given.  What
is written for a member is the value of the change at its pointer. -/
def added (o : Overlay) (path : Str) (names : List (List Char)) : List Str :=
  o.paths.filterMap fun p =>
    if p ∈ names.map (fun name => Oif.pointer path (.ofText name)) ∨
        ¬(path ++ [Sym.char '/']).isPrefixOf p then none
    else
      let rest := p.drop (path.length + 1)
      if Sym.char '/' ∈ rest then none
      else
        let name := (unescape rest).getD []
        let c := o.find (Oif.pointer path name)
        if c.any Change.remove then none
        else some (.ofText (marshal name) ++ .char ':' :: (c.map Change.value).getD [])

/-- What is written for a value: the change at its path, its own text if nothing below it
changes, and its contents otherwise. -/
def place (o : Overlay) (path : Str) (raw : List Char) (contents : Str) : Str :=
  match o.find path with
  | some c => c.value
  | none => if o.below path then contents else .ofText raw

end Overlay

/-- A container as it is written. -/
def enclose (first last : Char) (items : List Str) : Str :=
  .char first :: ([Sym.char ','].intercalate items ++ [.char last])

mutual

/-- `render`; a value that is neither an array nor an object has no members. -/
def Node.render (o : Overlay) : Node → Str → Str
  | .scalar _ raw, path => o.place path raw (enclose '\x7b' '\x7d' (o.added path []))
  | .array raw ns, path => o.place path raw (enclose '[' ']' (renderElements o ns path 0))
  | .object raw ms, path =>
    o.place path raw
      (enclose '\x7b' '\x7d' (renderMembers o ms path ++ o.added path (ms.map Prod.fst)))

def renderElements (o : Overlay) : List Node → Str → ℕ → List Str
  | [], _, _ => []
  | n :: ns, path, i =>
    n.render o (pointer path (.ofText (Text.ofNat i))) :: renderElements o ns path (i + 1)

def renderMembers (o : Overlay) : List (List Char × Node) → Str → List Str
  | [], _ => []
  | (name, n) :: ms, path =>
    if (o.find (pointer path (.ofText name))).any Change.remove then renderMembers o ms path
    else (.ofText (marshal (.ofText name)) ++
      .char ':' :: n.render o (pointer path (.ofText name))) :: renderMembers o ms path

end

/-- The checks on the place of a change. -/
def Change.checkPlace (d : Document) (c : Change) : Except EnvelopeError Unit :=
  if c.pointer = [] then require (c.remove = false) .cannotRemoveDocument
  else match lastSlash c.pointer with
    | none => .error .invalidOverlayPointer
    | some (parent, last) =>
      match d.lookup parent with
      | none => .error .overlayParentMissing
      | some p => do
          require (¬(p.kind ≠ .object ∧
            (p.kind ≠ .array ∨ (d.lookup c.pointer).isNone ∨ c.remove))) .overlayChangesArray
          require (¬(c.remove ∧ (d.lookup c.pointer).isNone)) .overlayRemovalMissing
          require (unescape last).isSome .invalidPointerEscape

/-- The checks on the value of a change. -/
def Change.checkValue (d : Document) (c : Change) : Except EnvelopeError Unit :=
  if c.remove then .ok () else (parse c.value d.limits).map fun _ => ()

/-- One change is added to those before it, with the size of their values. -/
def Change.join (d : Document) (s : ℕ × List Change) (c : Change) :
    Except EnvelopeError (ℕ × List Change) := do
  require (c.value.bytes.length ≤ d.limits.maxBytes - s.1) .overlayExceedsByteLimit
  require (¬(c.origin = .empty ∨ c.reason = [])) .overlayRequiresProvenance
  require (c.pointer ∉ s.2.map Change.pointer) .duplicateOverlayPath
  c.checkPlace d
  c.checkValue d
  return (s.1 + c.value.bytes.length, s.2 ++ [c])

def apply (source : Document) (changes : List Change) : Except EnvelopeError Document :=
  if changes = [] then .ok source
  else do
    require (changes.length ≤ source.limits.maxNodes) .overlayExceedsNodeLimit
    let (_, byPath) ← changes.foldlM (Change.join source) (0, [])
    let paths := (byPath.map Change.pointer).insertionSort fun p q => p.bytes ≤ q.bytes
    require (∀ p ∈ paths, ∀ q ∈ ancestors p, q ∉ paths) .overlappingOverlayPaths
    parse (source.root.render ⟨byPath, paths⟩ []) source.limits

/-! ## Requests -/

structure Request where
  descriptor : Descriptor
  source : Document
  effective : Document
  provenance : List Provenance

def newRequest (d : Descriptor) (source : Document) : Except EnvelopeError Request := do
  require (¬(d.operation.id = [] ∨ d.dialect.id = [])) .requestRequiresIdentities
  return ⟨d, source, source, []⟩

def Change.provenance (c : Change) : Provenance := ⟨c.pointer, c.origin, c.reason⟩

def Request.withChanges (r : Request) (changes : List Change) : Except EnvelopeError Request := do
  let d ← apply r.effective changes
  return { r with effective := d, provenance := r.provenance ++ changes.map Change.provenance }

/-! ## Preparation -/

/-- A rule of a dialect binding; an absent value is the zero `Value` of the source. -/
structure IdentityRule where
  pointer : Str
  origin : Origin
  kind : Kind
  validate : Option (Option Node → Option Node → Bool)

structure Prepared where
  request : Request
  destination : Descriptor
  document : Document
  provenance : List Provenance

/-- The parts of a pattern and of a pointer match; a star matches the index of an element of the
array that the parts before it lead to. -/
def segmentsMatch (d : Document) (before : List Str) : List Str → List Str → Bool
  | [], [] => true
  | want :: ws, got :: gs =>
    (if want ≠ [.char '*'] then decide (want = got)
      else match index got, d.lookup ([Sym.char '/'].intercalate before) with
        | some i, some (.array _ ns) => decide (i < ns.length)
        | _, _ => false) &&
      segmentsMatch d (before ++ [got]) ws gs
  | _, _ => false

def identityPointerMatches (pattern pointer : Str) (d : Document) : Bool :=
  pattern = pointer && !pattern.contains (.char '*') ||
    segmentsMatch d [] (pattern.splitOn (.char '/')) (pointer.splitOn (.char '/'))

def nodeKind (n : Option Node) : Kind := (n.map Node.kind).getD .absent

/-- `allowed`: some rule covers a change at a path. -/
def allowed (rules : List IdentityRule) (d : Document) (path : Str) (origin : Origin)
    (before after : Option Node) : Bool :=
  rules.any fun rule =>
    identityPointerMatches rule.pointer path d && rule.origin = origin &&
      rule.kind = nodeKind after && rule.validate.all fun v => v before after

/-- The check of a change that is made with the preparation. -/
def Change.checkIdentity (rules : List IdentityRule) (d : Document) (c : Change) :
    Except EnvelopeError Unit := do
  let value ← parse c.value d.limits
  require (c.remove = false ∧
    allowed rules d c.pointer c.origin (d.lookup c.pointer) (some value.root))
    .overlayOutsideContract

def prepareIdentity (r : Request) (destination : Descriptor) (changes : List Change)
    (rules : List IdentityRule) : Except EnvelopeError Prepared := do
  require (r.descriptor.operation = destination.operation ∧
    r.descriptor.dialect = destination.dialect) .identityRequiresSameContract
  require (∀ p ∈ r.provenance, allowed rules r.effective p.pointer p.origin
    (r.source.lookup p.pointer) (r.effective.lookup p.pointer)) .requestOutsideContract
  changes.forM (Change.checkIdentity rules r.effective)
  let d ← apply r.effective changes
  return ⟨r, destination, d, r.provenance ++ changes.map Change.provenance⟩

/-! ## Registries -/

structure Binding where
  dialect : Identity
  operation : Identity
  identityRules : List IdentityRule

structure Registry where
  operations : List Identity
  bindings : List Binding

def registerOperation (ops : List Identity) (op : Identity) :
    Except EnvelopeError (List Identity) := do
  require (¬(op.id = [] ∨ op.revision = [])) .operationRequiresRevision
  require (op ∉ ops) .duplicateOperation
  return ops ++ [op]

def Binding.has (b : Binding) (dialect operation : Identity) : Bool :=
  b.dialect = dialect && b.operation = operation

def registerBinding (ops : List Identity) (bs : List Binding) (b : Binding) :
    Except EnvelopeError (List Binding) := do
  require (¬(b.dialect.id = [] ∨ b.dialect.revision = [])) .dialectRequiresRevision
  require (b.operation ∈ ops) .unregisteredOperation
  require (¬bs.any (·.has b.dialect b.operation)) .duplicateBinding
  require (∀ rule ∈ b.identityRules, rule.origin = .identityBinding ∨
    rule.origin = .resourceBinding ∨ rule.origin = .transportOption) .ruleAuthorizesTransformation
  return bs ++ [b]

def newRegistry (operations : List Identity) (bindings : List Binding) :
    Except EnvelopeError Registry := do
  let ops ← operations.foldlM registerOperation []
  let bs ← bindings.foldlM (registerBinding ops) []
  return ⟨ops, bs⟩

def Registry.binding (r : Registry) (dialect operation : Identity) : Except EnvelopeError Binding :=
  match r.bindings.find? (·.has dialect operation) with
  | none => .error .unregisteredContract
  | some b => .ok b

def Registry.prepareIdentity (registry : Registry) (r : Request) (destination : Descriptor)
    (changes : List Change) : Except EnvelopeError Prepared := do
  let b ← registry.binding destination.dialect destination.operation
  Oif.prepareIdentity r destination changes b.identityRules

/-- A registry prepares a request that was made for a source and changed any number of times. -/
def Registry.prepareAfter (registry : Registry) (descriptor : Descriptor) (source : Document)
    (edits : List (List Change)) (destination : Descriptor) (changes : List Change) :
    Except EnvelopeError Prepared := do
  let r ← newRequest descriptor source
  let r ← edits.foldlM Request.withChanges r
  registry.prepareIdentity r destination changes

/-- Some identity rule of the registry matches a pointer, for a dialect and an operation. -/
def Registry.registers (registry : Registry) (destination : Descriptor) (d : Document)
    (pointer : Str) : Bool :=
  (registry.bindings.find? (·.has destination.dialect destination.operation)).any fun b =>
    b.identityRules.any fun rule => identityPointerMatches rule.pointer pointer d

end Olp.Oif
