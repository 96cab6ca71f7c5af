import CallGraph.Builtins
import CallGraph.ModuleName
import CallGraph.Provider.Error
import CallGraph.Provider.Question
import CallGraph.Source.Outline

/-!
# Looking names up across files

A `Survey` is what look-ups work with: the files, the search path, and a way to get the outline of a file.
Names are looked up through the scopes around them, the imports of their file, and the search path.  Calls
through a receiver are followed when the receiver is `self` or `cls`, a module, or a class.
-/

namespace CallGraph.Source

/-- The files, the search path and the outlines of files, which are had in `m`. -/
structure Survey (m : Type → Type) where
  files : FileTree
  searchPath : List Path
  outline : Path → ExceptT ProviderError m Outline

/-- The last name of a path without its extension. -/
def stemOf (path : Path) : String :=
  path.fileStem?.getD ""

/-- The dotted name of the module in a file, where a package has the name of its directory; a file that the
search path does not name has its stem for a name. -/
def moduleNameOf (files : FileTree) (searchPath : List Path) (path : Path) : String :=
  match moduleName? files searchPath path with
  | some name => dropEnding ".__init__" name
  | none => stemOf path

/-- The outline of a file as it is now. -/
def outlineNow [Parser] (files : FileTree) (searchPath : List Path) (path : Path) :
    Except ProviderError Outline :=
  match files.readOctets path with
  | .error e => .error (.outside (.files e))
  | .ok octets =>
    match Utf8.decode octets with
    | .error fault => .error (.outside (.files (.undecodable octets.toList fault)))
    | .ok text => .ok (Outline.ofSource path (moduleNameOf files searchPath path) text)

/-- The survey that reads every file anew. -/
def Survey.fresh [Parser] (files : FileTree) (searchPath : List Path) : Survey Id where
  files := files
  searchPath := searchPath
  outline path := outlineNow files searchPath path

/-- The definition of a module in a file. -/
def moduleDefinition (name : String) (path : Path) : Definition :=
  .ofModule name path

/-- The definitions of a name directly inside a scope. -/
def Outline.definitionsNamed (o : Outline) (scope : Nat) (name : String) : List Definition :=
  (o.childrenNamed scope name).filterMap o.definition?

/-- The definitions of a name that are seen from a scope in its own file: those in the nearest scope that
has any.  A class is looked into only if it is the scope itself. -/
def Outline.visible (o : Outline) (scope : Nat) (name : String) : List Definition :=
  let seen := (o.chain scope).filter fun i =>
    i == scope || (o.scopes[i]?.map (·.kind)) != some .classScope
  ((seen.map fun i => o.definitionsNamed i name).find? (!·.isEmpty)).getD []

/-- The definition of a builtin; those with a capital letter are classes. -/
def builtinDefinition (name : String) : Definition :=
  { name
    kind := if (name.toList.head?.map Char.isUpper).getD false then Kind.classKind else Kind.functionKind
    module := Builtins.moduleName
    path := none
    start := .unknown
    stop := .unknown }

/-- What stands before the dot of a callee. -/
inductive Receiver where
  /-- The object or class that a method belongs to. -/
  | own
  /-- Names with dots between them. -/
  | dotted (head : String) (rest : List String)
  /-- A fresh object of a class with a plain name. -/
  | object (className : String)
  /-- A fresh object of a class that is reached through a receiver. -/
  | objectOf (owner : Receiver) (className : String)

namespace Receiver

/-- A text before and after its last dot, if it has one. -/
def cutAtLastDot (cs : List Char) : Option (List Char × List Char) :=
  let after := (cs.reverse.takeWhile (· != '.')).reverse
  if after.length == cs.length then none else some (cs.take (cs.length - after.length - 1), after)

/-- Reads a receiver; each step takes some characters off, so its length is `fuel` enough. -/
def read : Nat → List Char → Receiver
  | 0, _ => .dotted "" []
  | fuel + 1, cs =>
    if cs == "self".toList || cs == "cls".toList then .own
    else if "()".toList.isSuffixOf cs then
      let callee := cs.take (cs.length - 2)
      match cutAtLastDot callee with
      | some (owner, className) => .objectOf (read fuel owner) (String.ofList className)
      | none => .object (String.ofList callee)
    else
      match dottedParts (String.ofList cs) with
      | head :: rest => .dotted head rest
      | [] => .dotted "" []

/-- The receiver that a text spells. -/
def ofText (text : String) : Receiver :=
  read (text.length + 1) text.toList

end Receiver

namespace Survey

/-- The file of a dotted module name below a directory. -/
def moduleFileIn (files : FileTree) (name : String) (directory : Path) : Option Path :=
  let base := directory.join ((dottedParts name).foldl Path.child ⟨""⟩)
  let file := base.withExtension "py"
  let marker := base.child packageMarker
  if files.isFile file then some file else if files.isFile marker then some marker else none

variable {m : Type → Type}

/-- The file of a dotted module name, on the search path or else below one more directory. -/
def locate (s : Survey m) (name : String) (extra : Option Path) : Option Path :=
  if name.isEmpty then none
  else (s.searchPath ++ extra.toList).findSome? (moduleFileIn s.files name)

/-- The module of a dotted name. -/
def locatedModule (s : Survey m) (name : String) (extra : Option Path) : List Definition :=
  ((s.locate name extra).map (moduleDefinition name)).toList

variable [Monad m]

/-- What a name of a module stands for: its definitions at top level, else its submodule. -/
def inModule (s : Survey m) (module name : String) (extra : Option Path) :
    ExceptT ProviderError m (List Definition) := do
  let found ← match s.locate module extra with
    | some path => do
      let o ← s.outline path
      pure (o.definitionsNamed 0 name)
    | none => pure []
  if found.isEmpty then pure (s.locatedModule (module ++ "." ++ name) extra) else pure found

/-- What a plain name stands for as seen from a scope. -/
def lookupName (s : Survey m) (o : Outline) (scope : Nat) (name : String) :
    ExceptT ProviderError m (List Definition) :=
  match o.visible scope name with
  | d :: ds => pure (d :: ds)
  | [] =>
    match o.imports.find? (·.localName == name) with
    | some i =>
      match i.attr with
      | some attr => s.inModule i.module attr o.path.parent?
      | none => pure ((i.boundModule.map fun bound => s.locatedModule bound o.path.parent?).getD [])
    | none => pure (if Builtins.isBuiltin name then [builtinDefinition name] else [])

/-- The definitions of a name inside a class. -/
def members (s : Survey m) (name : String) (d : Definition) : ExceptT ProviderError m (List Definition) :=
  match d.path with
  | none => pure []
  | some path => do
    let o ← s.outline path
    pure (((o.scopeOf d).map fun scope => o.definitionsNamed scope name).getD [])

/-- The definitions of a name inside those of some definitions that are classes. -/
def membersOfClasses (s : Survey m) (name : String) :
    List Definition → ExceptT ProviderError m (List Definition)
  | [] => pure []
  | d :: ds => do
    let first ← if d.kind == Kind.classKind then s.members name d else pure []
    let rest ← membersOfClasses s name ds
    pure (first ++ rest)

/-- What a name behind the dot of a receiver stands for as seen from a scope. -/
def lookupAttribute (s : Survey m) (o : Outline) (scope : Nat) (name : String) :
    Receiver → ExceptT ProviderError m (List Definition)
  | .own =>
    pure (((o.enclosingClass scope).map fun owner => o.definitionsNamed owner name).getD [])
  | .object className => do
    let classes ← s.lookupName o scope className
    s.membersOfClasses name classes
  | .objectOf owner className => do
    let classes ← lookupAttribute s o scope className owner
    s.membersOfClasses name classes
  | .dotted head rest =>
    match o.imports.find? (·.localName == head) with
    | some i =>
      let base := match i.attr with
        | some attr => i.module ++ "." ++ attr
        | none => i.boundModule.getD ""
      s.inModule (".".intercalate (base :: rest)) name o.path.parent?
    | none =>
      if rest.isEmpty then do
        let classes ← s.lookupName o scope head
        s.membersOfClasses name classes
      else pure []

/-- What a name with a qualifier, or without one, stands for as seen from a scope. -/
def lookup (s : Survey m) (o : Outline) (scope : Nat) (qualifier : Option String) (name : String) :
    ExceptT ProviderError m (List Definition) :=
  match qualifier with
  | none => s.lookupName o scope name
  | some qualifier => s.lookupAttribute o scope name (Receiver.ofText qualifier)

/-- The definition of a dotted name: a module, or a definition at the top level of one. -/
def resolve (s : Survey m) (name : String) : ExceptT ProviderError m (Option Definition) :=
  match s.locate name none with
  | some path => do
    let _ ← s.outline path
    pure (some (moduleDefinition name path))
  | none =>
    match Receiver.cutAtLastDot name.toList with
    | none => pure none
    | some (module, attr) =>
      match s.locate (String.ofList module) none with
      | none => pure none
      | some path => do
        let o ← s.outline path
        pure (o.definitionsNamed 0 (String.ofList attr)).head?

/-- The definition of a script. -/
def script (s : Survey m) (path : Path) : ExceptT ProviderError m Definition := do
  let _ ← s.outline path
  let name := stemOf path
  pure
    { name, kind := Kind.moduleKind, module := name, path := some path
      start := .known 1 0, stop := .unknown }

/-- The scope that a definition opens in an outline. -/
def scopeIn (o : Outline) (d : Definition) : ExceptT ProviderError m Nat :=
  match o.scopeOf d with
  | some scope => pure scope
  | none => throw (.notFound d.name)

/-- A site of an outline as a call site of a path. -/
def callSiteOf (path : Path) (site : Site) : CallSite :=
  { name := site.name, qualifier := site.qualifier, role := site.role, path := some path
    start := site.start, stop := site.stop }

/-- The call sites directly inside a scope. -/
def callSites (s : Survey m) (d : Definition) : ExceptT ProviderError m (List CallSite) :=
  match d.path with
  | none => pure []
  | some path => do
    let o ← s.outline path
    let scope ← scopeIn o d
    pure ((o.sites.filter (·.scope == scope)).map (callSiteOf path))

/-- The scope in which a name or call at a place is looked up. -/
def scopeAt (o : Outline) (recorded : Option Nat) (place : Location) : Nat :=
  recorded.getD (o.scopeContaining place)

/-- The definitions that a call site may stand for. -/
def targets (s : Survey m) (site : CallSite) : ExceptT ProviderError m (List Definition) :=
  match site.path with
  | none => pure []
  | some path => do
    let o ← s.outline path
    if site.role = .definition then
      pure ((o.scopeNamedAt site.start).bind o.definition?).toList
    else
      let scope := scopeAt o ((o.siteAt site.start).map (·.scope)) site.start
      s.lookup o scope site.qualifier site.name

/-- The role of a name of some context among the names of a scope, if it has one. -/
def roleOf : NameContext → Option Role
  | .call => some .child
  | .attribute => some .child
  | .definition => some .definition
  | .decorator => some .definition
  | .reference => none
  | .importName => none

/-- What a name inside a scope stands for. -/
def meaning (s : Survey m) (o : Outline) (n : NameRef) : ExceptT ProviderError m (List Definition) :=
  if n.context = .definition then pure ((o.scopeNamedAt n.start).bind o.definition?).toList
  else s.lookup o n.scope n.qualifier n.name

/-- The names of a scope that have a role, each with what it stands for; a name that stands for nothing
known is a statement. -/
def namesOf (s : Survey m) (path : Path) (o : Outline) :
    List NameRef → ExceptT ProviderError m (List ScopeName)
  | [] => pure []
  | n :: rest =>
    match roleOf n.context with
    | none => namesOf s path o rest
    | some role => do
      let found ← s.meaning o n
      let statement : Definition :=
        { name := n.name, kind := "statement", module := o.module, path := some path
          start := n.start, stop := n.stop }
      let others ← namesOf s path o rest
      pure (⟨role, ⟨some path, n.start, n.stop⟩, found.head?.getD statement⟩ :: others)

/-- The names directly inside a scope. -/
def scopeNames (s : Survey m) (d : Definition) : ExceptT ProviderError m (List ScopeName) :=
  match d.path with
  | none => pure []
  | some path => do
    let o ← s.outline path
    let scope ← scopeIn o d
    s.namesOf path o (o.names.filter (·.scope == scope))

/-- The nearest scope around an occurrence. -/
def enclosing (s : Survey m) (u : Usage) : ExceptT ProviderError m Definition :=
  match u.path with
  | none => throw (.notFound u.name)
  | some path => do
    let o ← s.outline path
    let scope := scopeAt o ((o.nameAt u.start).map (·.scope)) u.start
    match o.definition? scope with
    | some d => pure d
    | none => throw (.notFound u.name)

end Survey

end CallGraph.Source
