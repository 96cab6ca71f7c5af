import CallGraph.Json.Writer
import CallGraph.Settings.Category

/-!
# Settings stores

A `SettingsStore` is whatever loads and saves the values of the categories; any of this may fail.  A `DirectoryStore`
keeps each category in a file of its directory.  Before a file is written again, the old one is moved into the directory
`backup` beside it.  Without a directory nothing is stored.  A `MemoryStore` keeps the values themselves.
-/

namespace CallGraph

/-- Where settings are kept.  Saving may change the store and the files, also if it fails. -/
class SettingsStore (δ : Type) where
  /-- The stored value of a category, if there is one. -/
  load : δ → FileTree → Category → Except SettingsError (Option Json)
  /-- Stores a value. -/
  save : δ → FileTree → Category → Json → Except SettingsError Unit × δ × FileTree
  /-- The store for another project directory. -/
  relocate : δ → Option Path → δ := fun store _ => store

/-- A change of the file system. -/
inductive FileAction where
  | makeDirectories (path : Path)
  | move (source destination : Path)
  | write (path : Path) (text : String)

/-- The path that a failed change is reported with. -/
def FileAction.path : FileAction → Path
  | makeDirectories path => path
  | move _ destination => destination
  | write path _ => path

/-- Carries out a change.  Of directories that are not all made, some may have been. -/
def FileTree.act (t : FileTree) : FileAction → Except FileError Unit × FileTree
  | .makeDirectories path => t.makeAll path
  | .move source destination => t.replacedBy (t.rename source destination)
  | .write path text => t.replacedBy (t.writeText path text)

/-- The files of a directory as a store. -/
structure DirectoryStore where
  directory : Option Path := none
  /-- Whether the directory is known to be there. -/
  prepared : Bool := false

namespace DirectoryStore

/-- The file's name of a category. -/
def fileName (category : Category) : String :=
  category.name ++ ".json"

/-- The file of a category. -/
def file? (s : DirectoryStore) (category : Category) : Option Path :=
  s.directory.map (·.child (fileName category))

/-- Where old files are moved. -/
def backup (directory : Path) : Path :=
  directory.child "backup"

/-- The stored value of a category. -/
def load (s : DirectoryStore) (files : FileTree) (category : Category) :
    Except SettingsError (Option Json) :=
  match s.file? category with
  | none => .ok none
  | some file =>
    match files.readText file with
    | .error .notFound => .ok none
    | .error cause => .error (.unsaved file cause)
    | .ok text =>
      match Json.read text with
      | .ok value => .ok (some value)
      | .error fault => .error (.undecodable category (.text fault))

/-- The changes that put a value into a file. -/
def replacement (directory : Path) (files : FileTree) (category : Category) (value : Json) :
    List FileAction :=
  let file := directory.child (fileName category)
  let old := if files.exists file then [.move file ((backup directory).child (fileName category))] else []
  old ++ [.write file (value.pretty ++ "\n")]

/-- Carries out changes by means of `act`, up to the first that fails; this one may have changed files too. -/
def carryOut (act : FileTree → FileAction → Except FileError Unit × FileTree) :
    List FileAction → FileTree → Except SettingsError Unit × FileTree
  | [], files => (.ok (), files)
  | action :: actions, files =>
    match act files action with
    | (.ok (), files) => carryOut act actions files
    | (.error cause, files) => (.error (.unsaved action.path cause), files)

/-- Stores a value; changes of the file system are made by means of `act`. -/
def saveWith (act : FileTree → FileAction → Except FileError Unit × FileTree) (s : DirectoryStore)
    (files : FileTree) (category : Category) (value : Json) :
    Except SettingsError Unit × DirectoryStore × FileTree :=
  match s.directory with
  | none => (.ok (), s, files)
  | some directory =>
    let preparation := if s.prepared then [] else [.makeDirectories (backup directory)]
    match carryOut act preparation files with
    | (.error e, files) => (.error e, s, files)
    | (.ok (), files) =>
      let (result, files) := carryOut act (replacement directory files category value) files
      (result, { s with prepared := true }, files)

/-- Stores a value. -/
def save : DirectoryStore → FileTree → Category → Json →
    Except SettingsError Unit × DirectoryStore × FileTree :=
  saveWith FileTree.act

/-- The store of another directory. -/
def relocate (_ : DirectoryStore) (directory : Option Path) : DirectoryStore :=
  { directory }

end DirectoryStore

/-- Values kept in memory, and how often one was stored. -/
structure MemoryStore where
  values : List (Category × Json) := []
  saves : Nat := 0

namespace MemoryStore

/-- The value of a category. -/
def load (s : MemoryStore) (category : Category) : Option Json :=
  s.values.lookup category

/-- The store with a value that was there from the beginning. -/
def withValue (s : MemoryStore) (category : Category) (value : Json) : MemoryStore :=
  { s with values := (category, value) :: s.values.filter (·.1 != category) }

/-- Stores a value. -/
def save (s : MemoryStore) (category : Category) (value : Json) : MemoryStore :=
  { s.withValue category value with saves := s.saves + 1 }

end MemoryStore

instance : SettingsStore DirectoryStore where
  load := DirectoryStore.load
  save := DirectoryStore.save
  relocate := DirectoryStore.relocate

instance : SettingsStore MemoryStore where
  load s _ category := .ok (s.load category)
  save s files category value := (.ok (), s.save category value, files)

/-- Either of two stores. -/
instance {δ ε : Type} [SettingsStore δ] [SettingsStore ε] : SettingsStore (δ ⊕ ε) where
  load := Sum.elim SettingsStore.load SettingsStore.load
  save
    | .inl s, files, category, value =>
      let (result, s, files) := SettingsStore.save s files category value
      (result, .inl s, files)
    | .inr s, files, category, value =>
      let (result, s, files) := SettingsStore.save s files category value
      (result, .inr s, files)
  relocate store directory :=
    store.map (SettingsStore.relocate · directory) (SettingsStore.relocate · directory)

end CallGraph
