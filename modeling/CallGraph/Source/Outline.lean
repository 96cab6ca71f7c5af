import CallGraph.Definition
import CallGraph.Source.Tree

/-!
# Outlines of source files

The `Outline` of a file holds what navigation needs of its syntax tree: the scopes (the file itself, its
functions and classes), the call sites, the occurrences of names and the imports.  Scope 0 is the file;
every other scope has a parent with a smaller index.  Sites and names are in the order of the source text.
Look-ups go by the place where a name starts.
-/

namespace CallGraph.Source

/-- What opens a scope. -/
inductive ScopeKind where
  | module
  | function
  | classScope
  deriving DecidableEq, Repr

/-- The kind of definitions that open such a scope. -/
def ScopeKind.text : ScopeKind → String
  | module => Kind.moduleKind
  | function => Kind.functionKind
  | classScope => Kind.classKind

/-- A file, function or class as a scope of names. -/
structure Scope where
  name : String
  kind : ScopeKind
  parent : Option Nat
  /-- Where the name stands. -/
  start : Location
  stop : Location
  /-- The extent of the whole definition. -/
  spanStart : Location
  spanStop : Location
  deriving Repr

/-- What an occurrence of a name is for. -/
inductive NameContext where
  | reference
  /-- The callee of a call. -/
  | call
  /-- A name behind a dot. -/
  | attribute
  | decorator
  /-- The name of a definition or the target of an assignment. -/
  | definition
  | importName
  deriving DecidableEq, Repr

/-- The context's name. -/
def NameContext.text : NameContext → String
  | .reference => "reference"
  | .call => "call"
  | .attribute => "attribute"
  | .decorator => "decorator"
  | .definition => "definition"
  | .importName => "import"

/-- An occurrence of a name. -/
structure NameRef where
  scope : Nat
  name : String
  context : NameContext
  /-- The text before the dot, for a name behind one. -/
  qualifier : Option String
  start : Location
  stop : Location
  deriving Repr

/-- A call, decorator or definition. -/
structure Site where
  scope : Nat
  name : String
  qualifier : Option String
  role : Role
  start : Location
  stop : Location
  deriving Repr

/-- An imported name. -/
structure Import where
  /-- The name it has in the importing file. -/
  localName : String
  /-- The dotted name of the module, relative ones made absolute. -/
  module : String
  /-- The name taken from the module, if the module itself is not what is imported. -/
  attr : Option String
  aliased : Bool
  start : Location
  stop : Location
  deriving Repr

namespace Import

/-- The module that the local name stands for, if a module is what is imported. -/
def boundModule (i : Import) : Option String :=
  if i.attr.isSome then none
  else if i.aliased then some i.module
  else some (String.ofList (i.module.toList.takeWhile (· != '.')))

end Import

/-- What navigation needs of a file. -/
structure Outline where
  path : Path
  module : String
  isPackage : Bool
  scopes : List Scope
  sites : List Site
  names : List NameRef
  imports : List Import

namespace Outline

/-- The definition that opens a scope. -/
def definitionOf (o : Outline) (s : Scope) : Definition :=
  { name := s.name, kind := s.kind.text, module := o.module, path := some o.path
    start := s.start, stop := s.stop }

/-- The definition that opens the scope of an index. -/
def definition? (o : Outline) (scope : Nat) : Option Definition :=
  o.scopes[scope]?.map o.definitionOf

/-- The function or class whose name starts at a place. -/
def scopeNamedAt (o : Outline) (place : Location) : Option Nat :=
  (o.scopes.drop 1).findIdx? (·.start = place) |>.map (· + 1)

/-- The scope that a definition of this file opens. -/
def scopeOf (o : Outline) (d : Definition) : Option Nat :=
  if d.isModule || d.kind == Kind.scriptKind then some 0 else o.scopeNamedAt d.start

/-- The definitions of a name directly inside a scope. -/
def childrenNamed (o : Outline) (parent : Nat) (name : String) : List Nat :=
  (List.range o.scopes.length).filter fun i =>
    match o.scopes[i]? with
    | some s => s.parent == some parent && s.name == name
    | none => false

/-- The site that starts at a place. -/
def siteAt (o : Outline) (place : Location) : Option Site :=
  o.sites.find? (·.start = place)

/-- The name that starts at a place. -/
def nameAt (o : Outline) (place : Location) : Option NameRef :=
  o.names.find? (·.start = place)

/-- A scope and the scopes around it, the innermost first; `fuel` bounds their number. -/
def chainFrom (o : Outline) : Nat → Option Nat → List Nat
  | 0, _ => []
  | _, none => []
  | fuel + 1, some i => i :: chainFrom o fuel (o.scopes[i]?.bind (·.parent))

/-- A scope and the scopes around it, the innermost first. -/
def chain (o : Outline) (scope : Nat) : List Nat :=
  o.chainFrom o.scopes.length (some scope)

/-- How many scopes are around a scope. -/
def depth (o : Outline) (scope : Nat) : Nat :=
  (o.chain scope).length - 1

/-- Whether the extent of a scope holds a place. -/
def Scope.holds (s : Scope) (place : Location) : Bool :=
  s.spanStart.notAfter place && place.before s.spanStop

/-- The innermost function or class whose extent holds a place, or the file. -/
def scopeContaining (o : Outline) (place : Location) : Nat :=
  (List.range o.scopes.length).foldl (fun best i =>
    match o.scopes[i]? with
    | some s => if i != 0 && Scope.holds s place && o.depth best < o.depth i then i else best
    | none => best) 0

/-- The nearest class among a scope and those around it. -/
def enclosingClass (o : Outline) (scope : Nat) : Option Nat :=
  (o.chain scope).find? fun i => (o.scopes[i]?.map (·.kind)) == some .classScope

/-- Whether a dotted name begins with another one and a dot. -/
def isBelow (module parent : String) : Bool :=
  (parent.toList ++ ['.']).isPrefixOf module.toList

/-- Whether the file imports a module or something of it. -/
def importsModule (o : Outline) (module : String) : Bool :=
  o.imports.any fun i =>
    match i.attr with
    | some attr => i.module == module || i.module ++ "." ++ attr == module
    | none => i.module == module || isBelow i.module module

end Outline

/-! ### From tree to outline -/

/-- The parts of a dotted name. -/
def dottedParts (dotted : String) : List String :=
  (go dotted.toList).map String.ofList
where
  /-- Cuts characters at dots. -/
  go : List Char → List (List Char)
    | [] => [[]]
    | c :: cs =>
      match go cs with
      | [] => [[c]]
      | part :: rest => if c == '.' then [] :: part :: rest else (c :: part) :: rest

/-- The absolute name of a module as an import statement of a file spells it: each leading dot but the
first leads one package up. -/
def absoluteModule (module : String) (isPackage : Bool) (spelled : String) : String :=
  let level := (spelled.toList.takeWhile (· == '.')).length
  if level == 0 then spelled
  else
    let rest := String.ofList (spelled.toList.drop level)
    let up := if isPackage then level - 1 else level
    let package := dottedParts module
    let package := package.take (package.length - up)
    ".".intercalate (if rest.isEmpty then package else package ++ [rest])

/-- Where a tree stands: the construct around it, what it is there, and what is around that. -/
structure Place where
  construct : Construct := .group
  label : Label := .plain
  /-- Whether the construct around is itself the callee of a call. -/
  called : Bool := false
  /-- The text before the dot, if the construct around is an attribute. -/
  object : Option String := none
  inImport : Bool := false
  scope : Nat := 0

/-- The context of an identifier at a place. -/
def Place.context (p : Place) : NameContext :=
  match p.construct, p.label with
  | .call, .callee => .call
  | .attribute, .attribute => if p.called then .call else .attribute
  | .decorator, _ => .decorator
  | .assignment, .target => .definition
  | .dottedName, _ => if p.inImport then .importName else .reference
  | .aliasedImport, _ => if p.inImport then .importName else .reference
  | _, _ => .reference

/-- The place of a part of a construct. -/
def Place.enter (p : Place) (source : List Char) (construct : Construct) (parts : Parts) (label : Label) :
    Place :=
  { construct, label
    called := p.construct = .call && p.label = .callee
    object := if construct = .attribute then (parts.find? .object).map (·.textIn source) else none
    inImport := p.inImport || construct = .importStatement || construct = .importFrom
    scope := p.scope }

/-- The facts collected on a walk, each kind with the last one first. -/
structure Findings where
  scopes : List Scope := []
  sites : List Site := []
  names : List NameRef := []
  imports : List Import := []

/-- What a walk knows of the file. -/
structure FileFacts where
  source : List Char
  module : String
  isPackage : Bool

/-- What a call or decorator is anchored at, with the object before the dot: the name of an attribute, else
the last leaf. -/
def Tree.anchor : Tree → Tree × Option Tree
  | .node .attribute extent parts =>
    match parts.find? .attribute with
    | some name => (name, parts.find? .object)
    | none => (.node .attribute extent parts, none)
  | t => (t.lastLeaf, none)

/-- The kind of scope that a construct opens. -/
def Construct.opens : Construct → Option ScopeKind
  | .functionDefinition => some .function
  | .classDefinition => some .classScope
  | _ => none

namespace Findings

/-- The site of a call or decorator. -/
def siteOf (source : List Char) (scope : Nat) (callee : Tree) : Site :=
  let (anchor, object) := callee.anchor
  { scope, name := anchor.textIn source, qualifier := object.map (·.textIn source), role := .child
    start := anchor.extent.start.location, stop := anchor.extent.stop.location }

/-- Adds the site of a call or decorator. -/
def addSite (f : Findings) (source : List Char) (scope : Nat) (callee : Tree) : Findings :=
  { f with sites := siteOf source scope callee :: f.sites }

/-- Adds an occurrence of a name. -/
def addName (f : Findings) (p : Place) (name : String) (extent : Extent) : Findings :=
  { f with names :=
      { scope := p.scope, name, context := p.context
        qualifier := if p.construct = .attribute && p.label = .attribute then p.object else none
        start := extent.start.location, stop := extent.stop.location } :: f.names }

/-- Adds a definition: its scope, its site and the occurrence of its name. -/
def addDefinition (f : Findings) (source : List Char) (scope : Nat) (kind : ScopeKind) (name : Tree)
    (whole : Extent) : Findings :=
  let text := name.textIn source
  let start := name.extent.start.location
  let stop := name.extent.stop.location
  { f with
    scopes :=
      { name := text, kind, parent := some scope, start, stop
        spanStart := whole.start.location, spanStop := whole.stop.location } :: f.scopes
    sites := { scope, name := text, qualifier := none, role := .definition, start, stop } :: f.sites
    names := { scope, name := text, context := .definition, qualifier := none, start, stop } :: f.names }

/-- The import that a dotted name makes, which may have another name behind `as`.  `module` is the module of
a from-import. -/
def importNamed (source : List Char) (module : Option String) (dotted : Tree) (asName : Option Tree) :
    Import :=
  let text := dotted.textIn source
  let start := dotted.extent.start.location
  let stop := dotted.extent.stop.location
  let asNameText := asName.map (·.textIn source)
  match module with
  | some module =>
    { localName := asNameText.getD text, module, attr := some text, aliased := asName.isSome, start, stop }
  | none =>
    { localName := asNameText.getD (String.ofList (text.toList.takeWhile (· != '.')))
      module := text, attr := none, aliased := asName.isSome, start, stop }

/-- The import that an imported name makes, unless a part of it is missing. -/
def importOf (source : List Char) (module : Option String) : Tree → Option Import
  | .node .aliasedImport _ parts =>
    match parts.find? .name, parts.find? .asName with
    | some dotted, some asName => some (importNamed source module dotted (some asName))
    | _, _ => none
  | imported => some (importNamed source module imported none)

/-- Adds the imports of a statement. -/
def addImports (f : Findings) (source : List Char) (module : Option String) : Parts → Findings
  | .nil => f
  | .cons .name imported rest =>
    addImports { f with imports := (importOf source module imported).toList ++ f.imports } source module rest
  | .cons _ _ rest => addImports f source module rest

/-- Adds what a construct in a scope adds before its parts are walked.  A decorator that is a call is
recorded as a call; what is taken for its expression is its first part that is no sign. -/
def record (f : Findings) (file : FileFacts) (scope : Nat) (construct : Construct) (parts : Parts) : Findings :=
  match construct with
  | .call =>
    match parts.find? .callee with
    | some callee => f.addSite file.source scope callee
    | none => f
  | .decorator =>
    match parts.firstNamed? with
    | some expression =>
      if expression.construct? = some .call then f else f.addSite file.source scope expression
    | none => f
  | .importStatement => f.addImports file.source none parts
  | .importFrom =>
    match parts.find? .module with
    | some module =>
      let spelled := module.textIn file.source
      f.addImports file.source (some (absoluteModule file.module file.isPackage spelled)) parts
    | none => f
  | _ => f

end Findings

mutual

/-- Walks a tree at a place.  The head of a definition belongs to the scope around it; a definition without a
name is passed over. -/
def Tree.visit (file : FileFacts) (p : Place) (f : Findings) : Tree → Findings
  | .identifier text extent => f.addName p text extent
  | .token _ _ _ => f
  | .node construct extent parts =>
    match construct.opens with
    | some kind =>
      match parts.find? .name with
      | some name =>
        parts.visitDefinition file p (f.scopes.length + 1) (f.addDefinition file.source p.scope kind name extent)
      | none => f
    | none => parts.visit file (p.enter file.source construct parts) (f.record file p.scope construct parts)

/-- Walks the parts of a construct, each at its place. -/
def Parts.visit (file : FileFacts) (around : Label → Place) (f : Findings) : Parts → Findings
  | .nil => f
  | .cons label tree rest => rest.visit file around (tree.visit file (around label) f)

/-- Walks the parts of a definition: its name is known, its body belongs to the scope it opens. -/
def Parts.visitDefinition (file : FileFacts) (p : Place) (inner : Nat) (f : Findings) : Parts → Findings
  | .nil => f
  | .cons .name _ rest => rest.visitDefinition file p inner f
  | .cons .body tree rest =>
    rest.visitDefinition file p inner (tree.visit file { inImport := p.inImport, scope := inner } f)
  | .cons _ tree rest =>
    rest.visitDefinition file p inner (tree.visit file { inImport := p.inImport, scope := p.scope } f)

end

/-- The outline of a file with a given tree. -/
def Outline.ofTree (path : Path) (module : String) (source : List Char) (tree : Tree) : Outline :=
  let isPackage := path.fileStem? == some "__init__"
  let f := tree.visit ⟨source, module, isPackage⟩ {} {}
  let file : Scope :=
    { name := lastName module, kind := .module, parent := none, start := .known 1 0, stop := .unknown
      spanStart := tree.extent.start.location, spanStop := tree.extent.stop.location }
  { path, module, isPackage
    scopes := file :: f.scopes.reverse
    sites := f.sites.reverse.mergeSort fun a b => a.start.notAfter b.start
    names := f.names.reverse.mergeSort fun a b => a.start.notAfter b.start
    imports := f.imports.reverse }

/-- The outline of a source text. -/
def Outline.ofSource [Parser] (path : Path) (module : String) (source : String) : Outline :=
  .ofTree path module source.toList (Parser.tree source.toList)

end CallGraph.Source
