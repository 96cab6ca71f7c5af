import CallGraph.Location

/-!
# Elements of the call graph

An `Element` is what a column shows of a vertex of the call graph: name, kind and module, the file and
stretch of its definition, where the reference that led to it stands, and the `Role` in which it is shown.
Elements are compared field by field, paths as paths.  `callPathText` is the text of a walk.
-/

namespace CallGraph

/-- The kinds that have a meaning of their own; any other text is a kind as well. -/
def Kind.moduleKind : String := "module"

/-- The kind of classes. -/
def Kind.classKind : String := "class"

/-- The kind of functions. -/
def Kind.functionKind : String := "function"

/-- The kind of scripts. -/
def Kind.scriptKind : String := "script"

/-- The kind of nodes that only group others. -/
def Kind.organizerKind : String := "organizer"

/-- The kind, and the module, of call targets that are not known. -/
def Kind.unknownKind : String := "[Unknown]"

/-- Why an element stands in a column. -/
inductive Role where
  | definition
  | child
  | parent
  | signature
  deriving DecidableEq, Repr

namespace Role

/-- The role's name. -/
def text : Role → String
  | definition => "definition"
  | child => "child"
  | parent => "parent"
  | signature => "signature"

/-- All roles. -/
def all : List Role := [definition, child, parent, signature]

/-- The mark in front of a label. -/
def marker (unicode : Bool) : Role → String
  | child => " "
  | definition => if unicode then "・" else "."
  | parent => if unicode then "⊲" else "<"
  | signature => "-"

/-- The role of a name. -/
def ofName (name : String) : Except DecodeFault Role :=
  match all.find? (·.text == name) with
  | some role => .ok role
  | none => .error (.unknownVariant name (all.map text))

instance : Codec Role where
  encode role := .text role.text
  decode
    | .text name => ofName name
    | .object [(name, value)] => do
      let role ← ofName name
      match value with
      | .null => .ok role
      | other => wrongType other "unit"
    | .object fields => .error (.invalidValue (Json.object fields).describe "map with a single key")
    | other => wrongType other "string or map"

end Role

/-- What is shown of a vertex of the call graph. -/
structure Element where
  name : String
  kind : String
  module : String
  role : Role
  path : Option Path
  /-- Where the reference that led here stands. -/
  callPosition : CallPosition
  start : Location
  stop : Location
  deriving BEq

namespace Element

/-- The element of a node that only groups others. -/
def organizer (name : String) : Element :=
  { name
    kind := Kind.organizerKind
    module := "[None]"
    role := .definition
    path := none
    callPosition := .unknown
    start := .unknown
    stop := .unknown }

/-- Whether the element is a module. -/
def isModule (e : Element) : Bool :=
  e.kind == Kind.moduleKind

/-- The stretch of the element's own definition. -/
def ownPosition (e : Element) : CallPosition :=
  ⟨e.path, e.start, e.stop⟩

/-- The element shown at its own definition. -/
def asSignature (e : Element) : Element :=
  { e with role := .signature, callPosition := e.ownPosition }

/-- The letter that tells modules, classes and scripts from other kinds. -/
def kindMark (kind : String) : String :=
  if kind == Kind.moduleKind then "m:"
  else if kind == Kind.classKind then "c:"
  else if kind == Kind.scriptKind then "s:"
  else ""

/-- The element's text in a column. -/
def label (unicode : Bool) (e : Element) : String :=
  if e.role = .signature then s!"{e.role.marker unicode} [sig]"
  else s!"{e.role.marker unicode} {kindMark e.kind}{e.name}"

instance : Codec Element where
  encode e := .ofFields [
    ("name", encode e.name), ("kind", encode e.kind), ("module", encode e.module), ("role", encode e.role),
    ("path", encode e.path), ("call_position", encode e.callPosition),
    ("start_position", encode e.start), ("end_position", encode e.stop)]
  decode value := do
    let r ← RecordReader.start "CodeElement" [
      ("name", check String), ("kind", check String), ("module", check String), ("role", check Role),
      ("path", check (Option Path)), ("call_position", check CallPosition),
      ("start_position", check Location), ("end_position", check Location)] false false value
    let name ← r.required "name"
    let kind ← r.required "kind"
    let module ← r.required "module"
    let role ← r.required "role"
    let path ← r.optional "path"
    let callPosition ← r.required "call_position"
    let start ← r.required "start_position"
    let stop ← r.required "end_position"
    r.finish
    .ok { name, kind, module, role, path, callPosition, start, stop }

end Element

/-- The text of a walk: the names with commas between them, those reached backwards behind a `<`. -/
def callPathText (elements : List Element) : String :=
  ", ".intercalate (elements.map fun e => if e.role = .parent then "< " ++ e.name else e.name)

end CallGraph
