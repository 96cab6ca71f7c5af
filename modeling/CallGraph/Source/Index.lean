import CallGraph.Provider.Basic
import CallGraph.Source.Usages

/-!
# The index of source files

An `Index` keeps the outlines of the files that were read, each with the modification time and length the
file had.  A file whose time or length changed is read again.  Names of modules depend on the search path,
so another search path empties the index.  `Index.provider` is the provider that answers from it.  How files
are parsed is left open.
-/

namespace CallGraph.Source

/-- An outline and the modification time and length of its file when it was read. -/
structure Index.Kept where
  path : Path
  stamp : Nat × Nat
  outline : Outline

/-- The outlines kept and the search path that their module names come from. -/
structure Index where
  searchPath : List Path := []
  kept : List Index.Kept := []

namespace Index

/-- The number of outlines kept. -/
def size (x : Index) : Nat :=
  x.kept.length

/-- The index for a search path. -/
def use (x : Index) (searchPath : List Path) : Index :=
  if x.searchPath == searchPath then x else { searchPath, kept := [] }

/-- The outline kept for a file, if it is that of a modification time and length. -/
def find? (x : Index) (path : Path) (stamp : Nat × Nat) : Option Outline :=
  match x.kept.find? (·.path == path) with
  | some kept => if kept.stamp = stamp then some kept.outline else none
  | none => none

/-- The index with an outline. -/
def keep (x : Index) (entry : Kept) : Index :=
  { x with kept := entry :: x.kept.filter fun kept => !(kept.path == entry.path) }

/-- The index ready for a question: names and scripts are resolved on a search path of their own. -/
def prepared (x : Index) : Question → Index
  | .resolve _ searchPath => x.use searchPath
  | .script _ searchPath => x.use searchPath
  | _ => x

variable [Parser]

/-- The outline of a file, from the index or from the file. -/
def load (files : FileTree) (path : Path) : ExceptT ProviderError (StateM Index) Outline := fun x =>
  match files.stamp path with
  | .error e => (.error (.outside (.files e)), x)
  | .ok stamp =>
    match x.find? path stamp with
    | some outline => (.ok outline, x)
    | none =>
      match outlineNow files x.searchPath path with
      | .error e => (.error e, x)
      | .ok outline => (.ok outline, x.keep ⟨path, stamp, outline⟩)

/-- The survey that takes outlines from the index. -/
def survey (files : FileTree) (x : Index) : Survey (StateM Index) where
  files := files
  searchPath := x.searchPath
  outline := load files

/-- Answers a question. -/
def answer (files : FileTree) (q : Question) : ExceptT ProviderError (StateM Index) q.Answer := fun x =>
  let x := x.prepared q
  (x.survey files).answer q x

/-- The provider that answers from an index. -/
def provider : Provider Index where
  name := "tree-sitter-python"
  answer files q token := fun d =>
    if d.isCancelled token then (.error .cancelled, d)
    else
      let (r, state) := answer files q d.state
      (r, { d with state })

end Index

end CallGraph.Source
