import CallGraph.Files.Tree
import CallGraph.Recency

/-!
# Cached file texts

A `TextCache` keeps the texts of the files that were read last.  A text in the cache is not read again,
whatever happens to the file.
-/

namespace CallGraph

/-- The texts of files by path. -/
abbrev TextCache := Recency Path String

namespace TextCache

/-- How many texts a cache keeps unless told otherwise. -/
def defaultCapacity : Nat := 100

/-- The text of a file, from the cache or from the file system. -/
def read (cache : TextCache) (files : FileTree) (path : Path) : Except FileError String × TextCache :=
  cache.getOrLoad path files.readText

end TextCache

end CallGraph
