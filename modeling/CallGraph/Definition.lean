import CallGraph.Element

/-!
# Facts about source code

What an analysis of source code reports: a `Definition` is a module, function or class with the stretch of
its name; a `Usage` is an occurrence of a name; a `CallSite` is a call, decorator or nested definition
inside a scope; a `ScopeName` is a name inside a scope with the definition it stands for.
-/

namespace CallGraph

/-- A definition. -/
structure Definition where
  name : String
  kind : String
  /-- The dotted name of the module the definition belongs to. -/
  module : String
  path : Option Path
  start : Location
  stop : Location
  deriving BEq

namespace Definition

/-- Whether the definition is a module. -/
def isModule (d : Definition) : Bool :=
  d.kind == Kind.moduleKind

/-- The stretch of the definition's name. -/
def position (d : Definition) : CallPosition :=
  ⟨d.path, d.start, d.stop⟩

/-- The element that shows a definition in a role, reached from a position. -/
def toElement (d : Definition) (role : Role) (callPosition : CallPosition) : Element :=
  { name := d.name, kind := d.kind, module := d.module, role, path := d.path, callPosition
    start := d.start, stop := d.stop }

/-- Whether the definition stands in a file. -/
def inFile (d : Definition) (file : Path) : Bool :=
  d.path == some file

instance : Codec Definition where
  encode d := .ofFields [
    ("name", encode d.name), ("kind", encode d.kind), ("module", encode d.module), ("path", encode d.path),
    ("start", encode d.start), ("end", encode d.stop)]
  decode value := do
    let r ← RecordReader.start "Definition" [
      ("name", check String), ("kind", check String), ("module", check String),
      ("path", check (Option Path)), ("start", check Location), ("end", check Location)] false false value
    let name ← r.required "name"
    let kind ← r.required "kind"
    let module ← r.required "module"
    let path ← r.optional "path"
    let start ← r.required "start"
    let stop ← r.required "end"
    r.finish
    .ok { name, kind, module, path, start, stop }

end Definition

/-- An occurrence of a name. -/
structure Usage where
  name : String
  module : String
  path : Option Path
  start : Location
  stop : Location
  deriving BEq

namespace Usage

/-- The stretch of the occurrence. -/
def position (u : Usage) : CallPosition :=
  ⟨u.path, u.start, u.stop⟩

instance : Codec Usage where
  encode u := .ofFields [
    ("name", encode u.name), ("module", encode u.module), ("path", encode u.path),
    ("start", encode u.start), ("end", encode u.stop)]
  decode value := do
    let r ← RecordReader.start "Usage" [
      ("name", check String), ("module", check String), ("path", check (Option Path)),
      ("start", check Location), ("end", check Location)] false false value
    let name ← r.required "name"
    let module ← r.required "module"
    let path ← r.optional "path"
    let start ← r.required "start"
    let stop ← r.required "end"
    r.finish
    .ok { name, module, path, start, stop }

end Usage

/-- A call, decorator or nested definition inside a scope. -/
structure CallSite where
  /-- The last name of the callee. -/
  name : String
  /-- The text of the receiver when the callee is an attribute. -/
  qualifier : Option String
  role : Role
  path : Option Path
  start : Location
  stop : Location
  deriving BEq

namespace CallSite

/-- The stretch of the callee's name. -/
def position (s : CallSite) : CallPosition :=
  ⟨s.path, s.start, s.stop⟩

instance : Codec CallSite where
  encode s := .ofFields [
    ("name", encode s.name), ("qualifier", encode s.qualifier), ("role", encode s.role),
    ("path", encode s.path), ("start", encode s.start), ("end", encode s.stop)]
  decode value := do
    let r ← RecordReader.start "CallSite" [
      ("name", check String), ("qualifier", check (Option String)), ("role", check Role),
      ("path", check (Option Path)), ("start", check Location), ("end", check Location)] false false value
    let name ← r.required "name"
    let qualifier ← r.optional "qualifier"
    let role ← r.required "role"
    let path ← r.optional "path"
    let start ← r.required "start"
    let stop ← r.required "end"
    r.finish
    .ok { name, qualifier, role, path, start, stop }

end CallSite

/-- A name inside a scope and the definition it stands for. -/
structure ScopeName where
  role : Role
  callPosition : CallPosition
  definition : Definition
  deriving BEq

instance : Codec ScopeName where
  encode n := .ofFields [
    ("role", encode n.role), ("call_position", encode n.callPosition), ("definition", encode n.definition)]
  decode value := do
    let r ← RecordReader.start "ScopeName" [
      ("role", check Role), ("call_position", check CallPosition), ("definition", check Definition)]
      false false value
    let role ← r.required "role"
    let callPosition ← r.required "call_position"
    let definition ← r.required "definition"
    r.finish
    .ok { role, callPosition, definition }

/-! ### Facts made by hand -/

/-- The last component of a dotted name. -/
def lastName (dotted : String) : String :=
  String.ofList (dotted.toList.reverse.takeWhile (· != '.')).reverse

namespace Definition

/-- A function whose name starts at the fifth column of a line. -/
def function (name module : String) (path : Path) (line : UInt32) : Definition :=
  { name, kind := Kind.functionKind, module, path := some path
    start := .known line 4
    stop := .known line (4 + UInt32.ofNat name.utf8ByteSize) }

/-- A module, named after the last component of its dotted name. -/
def ofModule (module : String) (path : Path) : Definition :=
  { name := lastName module, kind := Kind.moduleKind, module, path := some path
    start := .known 1 0
    stop := .unknown }

end Definition

/-- A call of a plain name at a place. -/
def CallSite.plain (name : String) (path : Path) (line column : UInt32) : CallSite :=
  { name, qualifier := none, role := .child, path := some path
    start := .known line column
    stop := .known line (column + UInt32.ofNat name.utf8ByteSize) }

/-- An occurrence of a name at a place. -/
def Usage.plain (name module : String) (path : Path) (line column : UInt32) : Usage :=
  { name, module, path := some path
    start := .known line column
    stop := .known line (column + UInt32.ofNat name.utf8ByteSize) }

end CallGraph
