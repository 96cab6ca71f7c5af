import CallGraph.Node
import CallGraph.Search.Basic

/-!
# What calls a vertex

The parents of a vertex are the scopes around the usages of its symbol in the files searched.  Usages at
one known position count once, and the place where the symbol itself is defined is left out.
-/

namespace CallGraph

/-- What to search usages of a vertex by. -/
def Vertex.anchor? (v : Vertex) : Option Anchor :=
  match v.definition with
  | some d =>
    if d.path.isSome then some (.definition d)
    else if v.element.callPosition.path.isSome then some (.callSite v.element.callPosition v.element.name)
    else some (.importProbe v.element.name)
  | none =>
    if v.element.callPosition.path.isSome then some (.callSite v.element.callPosition v.element.name)
    else none

/-- The usages that count for an anchor; those of an import must have a module. -/
def Anchor.counted (anchor : Anchor) (usages : List Usage) : List Usage :=
  match anchor with
  | .importProbe _ => usages.filter fun u => !u.module.isEmpty
  | _ => usages

/-- Whether an element that uses a vertex is the module at the vertex's own definition. -/
def Vertex.isDefinedAt (v : Vertex) (parent : Element) : Bool :=
  parent.callPosition.path == v.element.path && parent.callPosition.start == v.element.start &&
    parent.isModule

namespace Finding

/-- The scope around a usage, if it can be found. -/
def enclosing? (u : Usage) : Finding (Option Definition) := do
  match ← ExceptT.lift (Search.ask (.enclosing u) none) with
  | .ok d => pure (some d)
  | .error .cancelled => throw .cancelled
  | .error e =>
    ExceptT.lift (Search.report e s!"while finding the scope enclosing {u.name} at {u.position.text}")
    pure none

/-- The parent that a usage gives, if any. -/
def parentAt? (v : Vertex) (u : Usage) : Finding (Option Vertex) := do
  match ← enclosing? u with
  | none => pure none
  | some d =>
    if let some file := d.path then request (.widen file)
    let parent := Vertex.ofDefinition .parent u.position d
    if v.isDefinedAt parent.element then
      let place := s!"{parent.element.name}:{parent.element.callPosition.start.text}"
      ExceptT.lift (Search.log (.info s!"Usages: Skipped definition of {v.element.name} at {place}"))
      pure none
    else pure (some parent)

/-- The parents that usages give; `seen` are the known positions so far. -/
def parentsAt (v : Vertex) (token : Token) (seen : List CallPosition) : List Usage → Finding (List Vertex)
  | [] => pure []
  | u :: us => do
    checkpoint token
    if !u.position.isUnknown && seen.contains u.position then parentsAt v token seen us
    else
      let parent ← parentAt? v u
      let seen := if u.position.isUnknown then seen else u.position :: seen
      let rest ← parentsAt v token seen us
      pure (parent.toList ++ rest)

/-- The parents of a vertex. -/
def parents (v : Vertex) (token : Token) : Finding (List Vertex) := do
  checkpoint token
  let files ← request .searchedFiles
  match v.anchor? with
  | none => pure []
  | some anchor =>
    let usages ← askContained (.usages anchor files) token [] s!"while finding usages of {v.element.name}"
    checkpoint token
    parentsAt v token [] (anchor.counted usages)

end Finding

end CallGraph
