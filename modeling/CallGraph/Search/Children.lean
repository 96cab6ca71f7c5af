import CallGraph.Builtins
import CallGraph.Search.Modules

/-!
# What a vertex calls

The children of a vertex are the targets of the call sites in its scope, in the order of the sites.  A site
without targets gives one placeholder; a site with several gives each of them once, the later ones under a
number.  Builtins that are never worth showing are left out.  Before them, a package has its members.
-/

namespace CallGraph

/-- The vertex of a call site whose target is not known. -/
def placeholder (site : CallSite) : Vertex :=
  { element :=
      { name := if site.name == "]" || site.name == ")" then "[unknown]" else site.name
        kind := Kind.unknownKind
        module := Kind.unknownKind
        role := site.role
        path := none
        callPosition := site.position
        start := .unknown
        stop := .unknown }
    definition := none }

/-- The vertex of a call site's target; a target that is not the first has its number behind its name. -/
def targetVertex (site : CallSite) (index : Nat) (target : Definition) : Vertex :=
  let element := target.toElement site.role site.position
  let name := if index = 0 then target.name else s!"{target.name} ({index + 1})"
  { element := { element with name }, definition := some target }

/-- The vertices of targets, counted from `index`, without those whose name and position occurred before
and those that are not worth showing. -/
def targetVertices (site : CallSite) (index : Nat) (seen : List (String × CallPosition)) :
    List Definition → List Vertex
  | [] => []
  | target :: rest =>
    if seen.contains (target.name, target.position) then targetVertices site (index + 1) seen rest
    else
      let vertex := targetVertex site index target
      let others := targetVertices site (index + 1) ((target.name, target.position) :: seen) rest
      if Builtins.isIgnored vertex.element.module vertex.element.name then others else vertex :: others

/-- The vertices of a call site with some targets. -/
def siteVertices (site : CallSite) (targets : List Definition) : List Vertex :=
  if targets.isEmpty then [placeholder site] else targetVertices site 0 [] targets

/-- The vertices of names in a scope. -/
def nameVertices (names : List ScopeName) : List Vertex :=
  (names.filter fun n => !Builtins.isIgnored n.definition.module n.definition.name).map fun n =>
    .ofDefinition n.role n.callPosition n.definition

/-- The marker file of a vertex that is a package, shown under the name of its directory. -/
def Vertex.packageMarker? (v : Vertex) : Option Path :=
  if v.element.isModule then
    match v.element.path with
    | none => none
    | some path =>
      match path.fileStem?, path.parent?.bind Path.fileName? with
      | some stem, some directory =>
        if stem == "__init__" && v.element.name == directory && v.element.name != stem then some path
        else none
      | _, _ => none
  else none

namespace Finding

/-- The vertices of call sites, one site after the other. -/
def sitesVertices (token : Token) : List CallSite → Finding (List Vertex)
  | [] => pure []
  | site :: sites => do
    checkpoint token
    let targets ← askContained (.targets site) token [] s!"while finding definitions of {site.name}"
    let rest ← sitesVertices token sites
    pure (siteVertices site targets ++ rest)

/-- The vertices of all call sites directly inside a scope. -/
def callSiteVertices (scope : Definition) (token : Token) : Finding (List Vertex) := do
  let sites ← ask (.callSites scope) (some token)
  sitesVertices token sites

/-- The vertices of all names directly inside a scope. -/
def scopeNameVertices (scope : Definition) (token : Token) : Finding (List Vertex) := do
  let names ← ask (.scopeNames scope) (some token)
  checkpoint token
  pure (nameVertices names)

/-- The members of a vertex that is a package. -/
def memberVertices (v : Vertex) (token : Token) : Finding (List Vertex) := do
  match v.packageMarker? with
  | none => pure []
  | some marker =>
    let members ← ExceptT.lift (Search.memberVertices marker v.element.name)
    checkpoint token
    pure members

/-- The children of a vertex. -/
def children (v : Vertex) (token : Token) : Finding (List Vertex) := do
  match v.definition with
  | none => pure []
  | some d =>
    checkpoint token
    let members ← memberVertices v token
    let inside ← if (← request .config).experimentalMode then scopeNameVertices d token
      else callSiteVertices d token
    pure (members ++ inside)

end Finding

end CallGraph
