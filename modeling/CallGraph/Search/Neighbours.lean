import CallGraph.Search.Children
import CallGraph.Search.Parents

/-!
# The neighbours of a node

A node is expanded into the leaf that shows its own definition, its children and its parents, in this
order.  A search that was cancelled gives nothing at all.  Errors are reported and give an empty part.
-/

namespace CallGraph

namespace Search

/-- Makes a vertex a node. -/
def node (v : Vertex) : Search Node := do
  pure (.analyzed (← request .freshNode) v)

/-- Makes vertices nodes. -/
def nodes : List Vertex → Search (List Node)
  | [] => pure []
  | v :: vs => do
    let first ← node v
    let rest ← nodes vs
    pure (first :: rest)

/-- Makes an organizer. -/
def organizer (element : Element) (parents children : List Node) : Search Node := do
  pure (.organizer (← request .freshNode) element parents children)

/-- Runs a search for neighbours as one of the searches under way.  An error ends it without a result. -/
def neighbours (caller : Token) (context : String) (find : Token → Finding (List Vertex)) :
    Search (List Vertex) := do
  let search ← request (.enter caller)
  let result ← (find search).run
  let found ← match result with
    | .ok vs => pure vs
    | .error e => do
      report e context
      pure []
  request (.leave search)
  pure found

end Search

namespace Vertex

/-- The children of a vertex; never fails. -/
def children (v : Vertex) (caller : Token) : Search (List Vertex) :=
  Search.neighbours caller s!"while finding outbound connections of {v.text}" (Finding.children v)

/-- The parents of a vertex; never fails. -/
def parents (v : Vertex) (caller : Token) : Search (List Vertex) :=
  Search.neighbours caller s!"while finding inbound connections of {v.text}" (Finding.parents v)

/-- The leaf that shows the definition of a vertex, its children and its parents, or nothing once the
caller's token is cancelled. -/
def next (v : Vertex) (caller : Token) : Search (List Vertex) := do
  if v.element.role = .signature then return []
  let signature := v.signature?
  if ← Search.isCancelled caller then return []
  let children ← v.children caller
  if ← Search.isCancelled caller then return []
  let parents ← v.parents caller
  if ← Search.isCancelled caller then return []
  return signature.toList ++ children ++ parents

end Vertex

namespace Node

/-- The leaf that shows the definition of a node. -/
def signature? : Node → Search (Option Node)
  | analyzed _ v => do
    match v.signature? with
    | some leaf => pure (some (← Search.node leaf))
    | none => pure none
  | organizer _ _ _ _ => pure none

/-- The nodes that a node calls. -/
def children (caller : Token) : Node → Search (List Node)
  | analyzed _ v => do Search.nodes (← v.children caller)
  | organizer _ _ _ children => pure children

/-- The nodes that call a node. -/
def parents (caller : Token) : Node → Search (List Node)
  | analyzed _ v => do Search.nodes (← v.parents caller)
  | organizer _ _ parents _ => pure parents

/-- The rows that a node is expanded into. -/
def next (caller : Token) : Node → Search (List Node)
  | analyzed _ v => do Search.nodes (← v.next caller)
  | organizer _ element parents children => do
    if element.role = .signature then return []
    if ← Search.isCancelled caller then return []
    return children ++ parents

end Node

end CallGraph
