import CallGraph.CommandLine.Program
import CallGraph.Source.Grammar

/-!
# The command line

Reads the files that a run may look at into a file tree, makes the run, prints what it prints, and writes
back what it changed.
-/

namespace CallGraph

/-- A file tree read from the disk. -/
structure Snapshot where
  tree : FileTree
  /-- The directories all of whose entries have been read. -/
  read : List (List String) := []

namespace Snapshot

/-- The snapshot with an entry. -/
def put (s : Snapshot) (place : List String) (entry : FileTree.Entry) : Snapshot :=
  { s with tree := s.tree.put place entry }

/-- The spelling of a place. -/
def spelling (place : List String) : String :=
  (Path.ofNames place).spelling

/-- The names of a place on the disk, all links followed, if it exists. -/
def realNames? (place : List String) : IO (Option (List String)) := do
  try
    let real ← IO.FS.realPath (spelling place)
    return some (Path.names ⟨real.toString⟩)
  catch _ => return none

/-- The names of the entries of a directory, if it is one. -/
def entryNames? (place : List String) : IO (Option (List String)) := do
  let here := (← IO.currentDir) / spelling place
  try
    return some ((← here.readDir).toList.map (·.fileName))
  catch _ => return none

mutual

/-- Reads a place that holds no links, and in a directory everything below it. -/
partial def addTree (s : Snapshot) (place : List String) : IO Snapshot := do
  if s.read.contains place then return s
  match ← entryNames? place with
  | some names =>
    let mut s := s
    if !place.isEmpty then s := s.put place .directory
    s := { s with read := place :: s.read }
    for name in names do
      s ← s.addPlace place [name]
    return s
  | none =>
    try
      let octets ← IO.FS.readBinFile (spelling place)
      return s.put place (.file octets 0)
    catch _ => return s

/-- Reads what stands at names below a place that holds no links. -/
partial def addPlace (s : Snapshot) (place names : List String) : IO Snapshot := do
  match names with
  | [] => s.addTree place
  | ".." :: rest => s.addPlace place.dropLast rest
  | name :: rest =>
    let next := place ++ [name]
    match ← realNames? next with
    | none => return s
    | some real =>
      if real == next then
        if rest.isEmpty then s.addTree next
        else (if (s.tree.entry? next).isSome then s else s.put next .directory).addPlace next rest
      else (s.put next (.link (spelling real))).addPlace [] (real ++ rest)

end

/-- Reads what stands at a path. -/
def addPath (s : Snapshot) (p : Path) : IO Snapshot :=
  let names := p.components.filterMap fun
    | .name text => some text
    | .up => some ".."
    | _ => none
  s.addPlace [] ((if p.isAbsolute then [] else s.tree.workingDirectory) ++ names)

end Snapshot

/-- Writes the entries of a tree to the disk that differ from those of an earlier one. -/
def FileTree.writeBack (before after : FileTree) : IO Unit := do
  let isNew (e : List String × FileTree.Entry) : Bool :=
    match e.2, before.entry? e.1 with
    | .file octets _, some (.file old _) => octets != old
    | _, some _ => false
    | _, none => true
  let changed := (after.entries.filter isNew).mergeSort fun a b => a.1.length ≤ b.1.length
  for (place, _) in before.entries do
    if (after.entry? place).isNone then IO.FS.removeFile (Snapshot.spelling place)
  for (place, entry) in changed do
    match entry with
    | .directory => IO.FS.createDirAll (Snapshot.spelling place)
    | .file octets _ => IO.FS.writeBinFile (Snapshot.spelling place) octets
    | .link _ => pure ()

open scoped Source.Grammar in
/-- Makes a run on the files of the disk; gives its exit code. -/
def runOnDisk (words : List String) : IO UInt32 := do
  let env : Environment :=
    { searchPath := ← IO.getEnv runtimePathVariable
      configDirectory := (← IO.getEnv UserConfig.directoryVariable).map Path.mk }
  let workingDirectory := Path.names ⟨(← IO.currentDir).toString⟩
  let mut snapshot : Snapshot := { tree := { workingDirectory } }
  for p in Program.pathsNamed words env do
    snapshot ← snapshot.addPath p
  for p in Program.pathsSaved words snapshot.tree do
    snapshot ← snapshot.addPath p
  let outcome := Program.run words env snapshot.tree
  for line in outcome.log do
    IO.eprintln s!"{line.level.text} {line.text}"
  IO.print outcome.output
  if let some report := outcome.report then IO.eprint report
  snapshot.tree.writeBack outcome.files
  return UInt32.ofNat outcome.exitCode

end CallGraph

/-- The program. -/
def main (words : List String) : IO UInt32 :=
  CallGraph.runOnDisk words
