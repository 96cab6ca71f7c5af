import CallGraph.Files.Tree

/-!
# Dotted module names

`moduleName?` names a file by its place below an entry of the search path: the names on the way joined by
dots, without one `.py` at the end.  Every directory on the way must be a package, which is what a
directory is that holds the marker file `__init__.py`.  The first entry that gives a name counts.
-/

namespace CallGraph

/-- The file that makes a directory a package. -/
def packageMarker : String := "__init__.py"

/-- Whether a directory is a package. -/
def FileTree.isPackage (files : FileTree) (directory : Path) : Bool :=
  files.exists (directory.child packageMarker)

/-- A text without an ending, if it has it. -/
def dropEnding (ending : String) (s : String) : String :=
  let cs := s.toList
  if ending.toList.isSuffixOf cs then String.ofList (cs.take (cs.length - ending.length)) else s

/-- Whether every directory strictly between `root` and the place `root ++ more` is a package. -/
def packagesBetween (files : FileTree) (root : List String) : List String → Bool
  | [] => true
  | [_] => true
  | name :: rest =>
    files.isPackage (Path.ofNames (root ++ [name])) && packagesBetween files (root ++ [name]) rest

/-- The name that an entry of the search path, in canonical form, gives to a file in canonical form. -/
def nameBelow? (files : FileTree) (root file : Path) : Option String :=
  if root.names.length < file.names.length && root.names.isPrefixOf file.names then
    let more := file.names.drop root.names.length
    if packagesBetween files root.names more then
      let name := dropEnding ".py" (".".intercalate more)
      if name.isEmpty then none else some name
    else none
  else none

/-- The name of a file below the first entry of a search path that gives one. -/
def moduleName? (files : FileTree) (searchPath : List Path) (file : Path) : Option String :=
  match files.canonical file with
  | .error _ => none
  | .ok file =>
    searchPath.findSome? fun entry =>
      match files.canonical entry with
      | .error _ => none
      | .ok root => nameBelow? files root file

end CallGraph
