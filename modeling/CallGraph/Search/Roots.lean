import CallGraph.Ledger
import CallGraph.Search.Neighbours

/-!
# Tracked modules and scripts

Every tracked module becomes a node, and every tracked script an organizer whose children are the targets
of the calls at its top level.  An entry that cannot be resolved has an error instead, and never keeps the
others from being resolved.
-/

namespace CallGraph

/-- The nodes of tracked entries, and the errors of those that have none. -/
structure Roots (κ : Type) where
  nodes : Ledger κ Node := {}
  failures : Ledger κ ResolutionError := {}

/-- The roots with the outcome for one more entry. -/
def Roots.add {κ : Type} [BEq κ] (r : Roots κ) (key : κ) : Except ResolutionError Node → Roots κ
  | .ok node => { r with nodes := r.nodes.insert key node }
  | .error e => { r with failures := r.failures.insert key e }

namespace Search

/-- The node of a tracked module. -/
def moduleNode (searchPath : List Path) (name : String) : Search (Except ResolutionError Node) := do
  match ← moduleVertex searchPath name with
  | .ok v => pure (.ok (← node v))
  | .error e => pure (.error e)

/-- Why a script cannot be resolved. -/
def scriptReason : ProviderError → String
  | .outside fault =>
    match fault.kind with
    | .notFound => "file not found"
    | .invalidData => "cannot decode file"
    | .other => fault.message
  | e => e.message

/-- The children of a script, which are found once and for all. -/
def scriptChildren (path : Path) (d : Definition) : Search (List Vertex) := do
  let token ← request .freshToken
  let found ← (Finding.callSiteVertices d token).run
  match ← (Finding.contained found [] s!"while finding outbound connections of script {path}").run with
  | .ok vs => pure vs
  | .error _ => pure []

/-- The element that shows a script. -/
def scriptElement (tree : FileTree) (path : Path) (d : Definition) : Element :=
  { name := d.name
    kind := Kind.scriptKind
    module := d.name
    role := .definition
    path := some (match tree.canonical path with
      | .ok canonical => canonical
      | .error _ => path)
    callPosition := ⟨some path, .unknown, .unknown⟩
    start := .known 1 0
    stop := .unknown }

/-- The node of a tracked script. -/
def scriptNode (searchPath : List Path) (path : Path) : Search (Except ResolutionError Node) := do
  match ← ask (.script path searchPath) none with
  | .error e => pure (.error (.unreadableScript path (scriptReason e)))
  | .ok d =>
    let children ← nodes (← scriptChildren path d)
    if let some file := d.path then request (.widen file)
    pure (.ok (← organizer (scriptElement (← request .files) path d) [] children))

/-- Resolves entries one after the other. -/
def rootsOf {κ : Type} [BEq κ] (resolve : κ → Search (Except ResolutionError Node)) (r : Roots κ) :
    List κ → Search (Roots κ)
  | [] => pure r
  | key :: keys => do
    let outcome ← resolve key
    if let .error e := outcome then log (.warn e.message)
    rootsOf resolve (r.add key outcome) keys

/-- Resolves tracked modules. -/
def moduleRoots (searchPath : List Path) (names : List String) : Search (Roots String) :=
  rootsOf (moduleNode searchPath) {} names

/-- Resolves tracked scripts. -/
def scriptRoots (searchPath : List Path) (paths : List Path) : Search (Roots Path) :=
  rootsOf (scriptNode searchPath) {} paths

end Search

end CallGraph
