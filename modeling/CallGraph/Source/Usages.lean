import CallGraph.Source.Survey

/-!
# Searching files for usages

The usages of a symbol are searched file by file.  A module is used where it is imported.  A function or
class is used in its own file wherever its name stands, and in other files wherever a name that they import
it under stands, or its name behind a dot after a name of its module.  A method is used wherever its name
stands behind a dot.
-/

namespace CallGraph.Source

/-- An import's module as a dotted name with the name taken from it. -/
def Import.whole (i : Import) : String :=
  match i.attr with
  | some attr => i.module ++ "." ++ attr
  | none => i.module

/-- The names that a file has for a definition of another file. -/
def Outline.aliasesOf (o : Outline) (d : Definition) : List String :=
  (o.imports.filter fun i => i.module == d.module && i.attr == some d.name).map (·.localName)

/-- The names that a file has for a module. -/
def Outline.namesOfModule (o : Outline) (module : String) : List String :=
  o.imports.filterMap fun i =>
    if i.whole == module then
      some (if i.attr.isSome || i.aliased then i.localName else i.module)
    else none

/-- Whether an occurrence in a file is a usage of a definition that is no module. -/
def Outline.refersTo (o : Outline) (d : Definition) (isMember sameFile : Bool) (n : NameRef) : Bool :=
  if n.context = .importName then !sameFile && n.name == d.name
  else
    match n.qualifier with
    | some qualifier => n.name == d.name && (isMember || (o.namesOfModule d.module).contains qualifier)
    | none =>
      (if sameFile then [d.name] else o.aliasesOf d).contains n.name &&
        (!isMember || (sameFile && n.start == d.start))

/-- A usage of a symbol in a file. -/
def Outline.usage (o : Outline) (name : String) (start stop : Location) : Usage :=
  { name, module := o.module, path := some o.path, start, stop }

/-- The usages of a definition in a file. -/
def Outline.usagesOf (o : Outline) (d : Definition) (isMember : Bool) : List Usage :=
  if d.isModule then
    (o.imports.filter (·.whole == d.module)).map fun i => o.usage d.name i.start i.stop
  else
    let sameFile := d.path == some o.path
    if sameFile || o.importsModule d.module then
      (o.names.filter (o.refersTo d isMember sameFile)).map fun n => o.usage d.name n.start n.stop
    else []

namespace Survey

variable {m : Type → Type} [Monad m]

/-- Whether a definition is nested directly in a class.  A definition whose file cannot be had is not. -/
def isMember (s : Survey m) (d : Definition) : ExceptT ProviderError m Bool :=
  match d.path with
  | none => pure false
  | some path => do
    match ← ExceptT.lift (s.outline path).run with
    | .error _ => pure false
    | .ok o =>
      let parent := (o.scopeOf d).bind fun i => o.scopes[i]?.bind (·.parent)
      pure (parent.any fun i => (o.scopes[i]?.map (·.kind)) == some .classScope)

/-- The usages of a definition in some files; files that cannot be had are passed over. -/
def usagesIn (s : Survey m) (d : Definition) (isMember : Bool) :
    List Path → ExceptT ProviderError m (List Usage)
  | [] => pure []
  | file :: rest => do
    let here ← match ← ExceptT.lift (s.outline file).run with
      | .ok o => pure (o.usagesOf d isMember)
      | .error _ => pure []
    let others ← usagesIn s d isMember rest
    pure (here ++ others)

/-- A list without the entries that equal the one before them. -/
def withoutRuns : List Path → List Path
  | [] => []
  | [p] => [p]
  | p :: q :: rest => if p == q then withoutRuns (p :: rest) else p :: withoutRuns (q :: rest)
termination_by paths => paths.length

/-- The files to search for a definition: those given and its own, in order, each once. -/
def filesFor (d : Definition) (files : List Path) : List Path :=
  withoutRuns (Path.sort (files ++ d.path.toList))

/-- The usages of a definition in some files and its own. -/
def usagesOf (s : Survey m) (d : Definition) (files : List Path) :
    ExceptT ProviderError m (List Usage) := do
  let isMember ← s.isMember d
  s.usagesIn d isMember (filesFor d files)

/-- The usages of what an anchor stands for.  If a call site stands for nothing known, they are all
occurrences of its name in its file. -/
def usages (s : Survey m) (files : List Path) : Anchor → ExceptT ProviderError m (List Usage)
  | .definition d => s.usagesOf d files
  | .callSite position name =>
    match position.path with
    | none => pure []
    | some path => do
      let o ← s.outline path
      let found ← match o.siteAt position.start with
        | some site => s.targets (callSiteOf o.path site)
        | none => pure []
      match found with
      | d :: _ => s.usagesOf d files
      | [] => pure ((o.names.filter (·.name == name)).map fun n => o.usage name n.start n.stop)
  | .importProbe name => do
    match ← s.resolve name with
    | some d => s.usagesOf d files
    | none => pure []

/-- The answer to a question. -/
def answer (s : Survey m) : (q : Question) → ExceptT ProviderError m q.Answer
  | .resolve name _ => s.resolve name
  | .script path _ => s.script path
  | .callSites scope => s.callSites scope
  | .targets site => s.targets site
  | .scopeNames scope => s.scopeNames scope
  | .usages anchor files => s.usages files anchor
  | .enclosing usage => s.enclosing usage

end Survey

end CallGraph.Source
