import CallGraph.Json.Codec
import CallGraph.Location
import CallGraph.Log
import CallGraph.ModuleName

/-!
# What a session tracks

`ScopeSettings` lists tracked modules, tracked scripts and the search path.  `ScopeSettings.merge` adds to
saved settings what the user asks for: a file becomes a module if the search path names it, a script if it
is a file at all, and is reported otherwise.
-/

namespace CallGraph

/-- Tracked modules and scripts, and the search path. -/
structure ScopeSettings where
  moduleNames : List String := []
  scripts : List Path := []
  searchPath : List Path := []
  deriving BEq

instance : Codec ScopeSettings where
  encode s := .ofFields [
    ("module_names", encode s.moduleNames), ("scripts", encode s.scripts),
    ("effective_search_path", encode s.searchPath)]
  decode value := do
    let r ← RecordReader.start "ScopeSettings" [
      ("module_names", check (List String)), ("scripts", check (List Path)),
      ("effective_search_path", check (List Path))] false false value
    let moduleNames ← r.required "module_names"
    let scripts ← r.required "scripts"
    let searchPath ← r.required "effective_search_path"
    r.finish
    .ok { moduleNames, scripts, searchPath }

/-- What the user adds to a session. -/
structure UserScope where
  moduleNames : List String := []
  /-- Files to track: as modules when the search path names them, as scripts otherwise. -/
  files : List Path := []
  /-- Whether the search path of the environment is the base of a project without settings. -/
  includeRuntime : Bool := false
  addToSearchPath : List Path := []

/-- The variable that holds the search path of the environment. -/
def runtimePathVariable : String := "PYTHONPATH"

/-- The pieces of a text between colons. -/
def splitColons : List Char → List (List Char)
  | [] => [[]]
  | c :: cs =>
    match splitColons cs with
    | [] => [[c]]
    | piece :: rest => if c == ':' then [] :: piece :: rest else (c :: piece) :: rest

/-- The search path that a variable's value spells; an unset variable spells none. -/
def runtimeSearchPath (value : Option String) : List Path :=
  match value with
  | none => []
  | some value => (splitColons value.toList).map fun piece => ⟨String.ofList piece⟩

/-- A list without repeats; of equal entries the first one stays. -/
def distinct {α : Type} [BEq α] (items : List α) : List α :=
  items.foldl (fun kept a => if kept.contains a then kept else kept ++ [a]) []

namespace ScopeSettings

/-- The search path to work with: the saved one, else that of the environment if asked for, and what the
user adds, without empty entries. -/
def effectivePath (hasSaved : Bool) (saved : ScopeSettings) (user : UserScope) (runtime : List Path) :
    List Path :=
  let base := if hasSaved then saved.searchPath else if user.includeRuntime then runtime else []
  (base ++ user.addToSearchPath).filter fun p => !p.spelling.isEmpty

/-- Adds one file to the settings. -/
def addFile (files : FileTree) (s : ScopeSettings × List LogLine) (file : Path) :
    ScopeSettings × List LogLine :=
  let (settings, log) := s
  match moduleName? files settings.searchPath file with
  | some name => ({ settings with moduleNames := settings.moduleNames ++ [name] }, log)
  | none =>
    if files.isFile file then ({ settings with scripts := settings.scripts ++ [file] }, log)
    else (settings, log ++ [.warn s!"Could not resolve module for {file}"])

/-- Saved settings with what the user adds. -/
def merge (files : FileTree) (hasSaved : Bool) (saved : ScopeSettings) (user : UserScope)
    (runtime : List Path) : ScopeSettings × List LogLine :=
  let start : ScopeSettings :=
    { moduleNames := distinct (saved.moduleNames ++ user.moduleNames)
      scripts := saved.scripts
      searchPath := effectivePath hasSaved saved user runtime }
  user.files.foldl (addFile files) (start, [])

end ScopeSettings

end CallGraph
