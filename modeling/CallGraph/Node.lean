import CallGraph.Definition
import CallGraph.Text.Outlay

/-!
# Nodes

A `Vertex` is what analysis knows of a place in the call graph: the element that shows it and, unless it is
not known, its definition.  A `Node` is a row of a column: a vertex, or an organizer, whose neighbours are
fixed.  Every node has a number of its own, which is its identity: two nodes may show the same element.
-/

namespace CallGraph

/-- A place in the call graph. -/
structure Vertex where
  element : Element
  definition : Option Definition

namespace Vertex

/-- The vertex of a definition in some role, reached from some position. -/
def ofDefinition (role : Role) (callPosition : CallPosition) (d : Definition) : Vertex :=
  ⟨d.toElement role callPosition, some d⟩

/-- The vertex shown at its own definition, if it has a file and is no module. -/
def signature? (v : Vertex) : Option Vertex :=
  if v.element.path.isNone || v.element.isModule then none
  else some { v with element := v.element.asSignature }

/-- The vertex in words. -/
def text (v : Vertex) : String :=
  s!"AnalyzedNode({v.element.name}, call_position={v.element.callPosition.text})"

end Vertex

/-- A row of a column. -/
inductive Node where
  | analyzed (number : Nat) (vertex : Vertex)
  /-- A node that groups others. -/
  | organizer (number : Nat) (element : Element) (parents children : List Node)

namespace Node

/-- The node's identity. -/
def number : Node → Nat
  | analyzed number _ => number
  | organizer number _ _ _ => number

/-- The element that the node shows. -/
def element : Node → Element
  | analyzed _ vertex => vertex.element
  | organizer _ element _ _ => element

/-- Whether the node only groups others. -/
def isOrganizer : Node → Bool
  | analyzed _ _ => false
  | organizer _ _ _ _ => true

/-- Whether two nodes are one and the same. -/
def same (a b : Node) : Bool :=
  a.number == b.number

/-- The node in words. -/
def text : Node → String
  | analyzed _ vertex => vertex.text
  | organizer _ element _ _ => s!"OrganizerNode({element.name})"

end Node

/-! ### All parts of a node -/

/-- A location with its parts. -/
def Location.parts (l : Location) : Outlay :=
  .record "Location" [
    ("line", .optional (l.line.map fun n => .number n.toNat)),
    ("column", .optional (l.column.map fun n => .number n.toNat))]

/-- A path that may be missing. -/
def pathParts (path : Option Path) : Outlay :=
  .optional (path.map fun p => .atom (Quoted.path p.spelling))

/-- A stretch with its parts. -/
def CallPosition.parts (p : CallPosition) : Outlay :=
  .record "CallPosition" [("path", pathParts p.path), ("start", p.start.parts), ("end", p.stop.parts)]

/-- The role's name with a capital. -/
def Role.capitalized : Role → String
  | .definition => "Definition"
  | .child => "Child"
  | .parent => "Parent"
  | .signature => "Signature"

/-- An element with its parts. -/
def Element.parts (e : Element) : Outlay :=
  .record "CodeElement" [
    ("name", .text e.name), ("kind", .text e.kind), ("module", .text e.module),
    ("role", .atom e.role.capitalized), ("path", pathParts e.path),
    ("call_position", e.callPosition.parts), ("start_position", e.start.parts),
    ("end_position", e.stop.parts)]

/-- A node with its parts. -/
def Node.parts (n : Node) : Outlay :=
  .record (if n.isOrganizer then "OrganizerNode" else "AnalyzedNode") [("element", n.element.parts)]

end CallGraph
