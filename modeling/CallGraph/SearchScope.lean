import CallGraph.Path

/-!
# Search scopes

A `SearchScope` is the set of files that are searched for usages.  It grows with every file a search
meets; its snapshot lists the files in order.
-/

namespace CallGraph

/-- A set of files, each in the spelling in which it came in first. -/
structure SearchScope where
  files : List Path := []

namespace SearchScope

/-- Whether a file is in the set. -/
def contains (s : SearchScope) (file : Path) : Bool :=
  s.files.any (· == file)

/-- The set with a file. -/
def insert (s : SearchScope) (file : Path) : SearchScope :=
  if s.contains file then s else ⟨file :: s.files⟩

/-- The set with some files. -/
def insertAll (s : SearchScope) (files : List Path) : SearchScope :=
  files.foldl insert s

/-- The set of some files. -/
def ofList (files : List Path) : SearchScope :=
  insertAll ⟨[]⟩ files

/-- The number of files. -/
def size (s : SearchScope) : Nat :=
  s.files.length

/-- The files in order. -/
def snapshot (s : SearchScope) : List Path :=
  Path.sort s.files

end SearchScope

end CallGraph
