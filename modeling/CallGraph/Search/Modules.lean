import CallGraph.ModuleName
import CallGraph.Node
import CallGraph.Search.Basic

/-!
# Modules and the members of packages

Module names are resolved into vertices.  The members of a package are the files and packages in its
directory, the files first, each group in the order of their paths.
-/

namespace CallGraph

/-- Why a tracked module or script has no node. -/
inductive ResolutionError where
  | unknownModule (name : String)
  | unreadableScript (path : Path) (reason : String)
  | refused (name : String) (cause : ProviderError)

/-- A resolution error in words. -/
def ResolutionError.message : ResolutionError → String
  | unknownModule name => s!"could not resolve module {name} (did you mean to use \"-f\"?)"
  | unreadableScript path reason => s!"cannot resolve script \"{path}\": {reason}"
  | refused name cause => s!"error while resolving {name}: {cause.message}"

/-- The files and the packages in a directory, and its other directories. -/
structure PackageMembers where
  files : List Path := []
  packages : List Path := []
  others : List Path := []

namespace PackageMembers

/-- Adds what stands in the directory under a name. -/
def add (tree : FileTree) (directory : Path) (m : PackageMembers) (name : String) : PackageMembers :=
  let path := directory.child name
  if tree.isDirectory path then
    if name == "__pycache__" then m
    else if tree.isPackage path then { m with packages := m.packages ++ [path] }
    else { m with others := m.others ++ [path] }
  else if path.extension? == some "py" && name != packageMarker then { m with files := m.files ++ [path] }
  else m

/-- The members of the package in a directory. -/
def list (tree : FileTree) (directory : Path) : Except FileError PackageMembers := do
  let names ← tree.list directory
  .ok (names.foldl (add tree directory) {})

/-- The warning about the directories in a package that are no packages. -/
def warning? (m : PackageMembers) (package : String) : Option LogLine :=
  if m.others.isEmpty then none
  else
    some (.warn ("Package \x60" ++ package ++ "\x60 contains subdirectories that are not packages: " ++
      Quoted.list (m.others.filterMap Path.fileName?)))

end PackageMembers

namespace Search

/-- Resolves a module name.  Its file is searched for usages from now on. -/
def moduleVertex (searchPath : List Path) (name : String) : Search (Except ResolutionError Vertex) := do
  match ← ask (.resolve name searchPath) none with
  | .error e => pure (.error (.refused name e))
  | .ok none => pure (.error (.unknownModule name))
  | .ok (some d) =>
    if let some file := d.path then request (.widen file)
    pure (.ok (.ofDefinition .definition ⟨d.path, .known 1 0, .unknown⟩ d))

/-- The vertices of some module names; those that cannot be resolved are left out. -/
def moduleVertices (searchPath : List Path) : List String → Search (List Vertex)
  | [] => pure []
  | name :: names => do
    let first ← moduleVertex searchPath name
    let rest ← moduleVertices searchPath names
    match first with
    | .ok v => pure (v :: rest)
    | .error _ => pure rest

/-- The vertices of the members of a package, whose marker file is given. -/
def memberVertices (marker : Path) (package : String) : Search (List Vertex) := do
  match marker.parent? with
  | none => pure []
  | some directory =>
    let searchPath ← request .searchPath
    let tree ← request .files
    match PackageMembers.list tree directory with
    | .error e =>
      log (.warn s!"Cannot list package {package}: {e.message}")
      pure []
    | .ok members =>
      if let some warning := members.warning? package then log warning
      let paths := members.files ++ members.packages
      moduleVertices searchPath (paths.filterMap (moduleName? tree searchPath))

end Search

end CallGraph
