import CallGraph.ScopeSettings
import CallGraph.Search.Roots
import CallGraph.Settings.Store
import CallGraph.Workspace

/-!
# Projects

A `Project` holds the settings, the store they are kept in, and the nodes of the tracked modules and
scripts.  A change of the settings brings the nodes in line: new entries are resolved, entries that are
tracked no longer are dropped, and all others keep the node they have.
-/

namespace CallGraph

/-- Settings, their store, and the nodes of what is tracked. -/
structure Project (δ : Type) where
  store : δ
  settings : Settings := {}
  modules : Roots String := {}
  scripts : Roots Path := {}

/-- What a change of the settings did. -/
structure SettingsChange where
  changed : Bool
  /-- Nodes that are tracked no longer. -/
  stale : List Node := []
  /-- Nodes that are new. -/
  additional : List Node := []

namespace Project

variable {δ σ : Type} [SettingsStore δ]

/-- The directory of the project. -/
def directory (p : Project δ) : Option Path :=
  p.settings.projectSettings.directory

/-- Moves the project to another directory. -/
def setDirectory (p : Project δ) (directory : Option Path) : Project δ :=
  if p.directory == directory then p
  else
    { p with
      store := SettingsStore.relocate p.store directory
      settings := { p.settings with projectSettings := { directory } } }

/-- What the project tracks. -/
def scopeSettings (p : Project δ) : ScopeSettings :=
  { moduleNames := p.settings.modules, scripts := p.settings.scripts, searchPath := p.settings.sysPath }

/-- Replaces what the project tracks, but none of its nodes. -/
def loadScope (p : Project δ) (scope : ScopeSettings) (w : Workspace σ) : Project δ × Workspace σ :=
  ({ p with
      settings := { p.settings with
        modules := scope.moduleNames, scripts := scope.scripts, sysPath := scope.searchPath } },
    { w with searchPath := scope.searchPath })

/-- The nodes of all modules, then of all scripts. -/
def rootNodes (p : Project δ) : List Node :=
  p.modules.nodes.values ++ p.scripts.nodes.values

/-- A node with all tracked nodes for children. -/
def root (p : Project δ) : Search Node :=
  Search.organizer (.organizer "Root") [] p.rootNodes

/-- Has the files of the tracked nodes searched for usages, and no others. -/
def refreshScope (p : Project δ) (w : Workspace σ) : Workspace σ :=
  { w with scope := .ofList (p.rootNodes.filterMap (·.element.path)) }

/-- Resolves everything that is tracked again. -/
def rebuild (p : Project δ) (w : Workspace σ) : Project δ × Workspace σ :=
  let w := { w with searchPath := p.settings.sysPath }
  let (modules, w) := w.run (Search.moduleRoots p.settings.sysPath p.settings.modules)
  let (scripts, w) := w.run (Search.scriptRoots p.settings.sysPath p.settings.scripts)
  let p := { p with modules, scripts }
  let failures := modules.failures.size + scripts.failures.size
  let line :=
    s!"Resolved {modules.nodes.size} modules and {scripts.nodes.size} scripts ({failures} failures)"
  (p, p.refreshScope (w.note (.info line)))

/-- The JSON form of a category, as it is shown or as it is stored. -/
def value (p : Project δ) (category : Category) (stored : Bool) : Json :=
  if stored then p.settings.storedValue category else p.settings.value category

/-- The values of some categories in the store.  Values that cannot be decoded are reported and left out. -/
def loadCategories (p : Project δ) (w : Workspace σ) :
    List Category → Except SettingsError (List (Category × Json)) × Workspace σ
  | [] => (.ok [], w)
  | category :: rest =>
    match SettingsStore.load p.store w.files category with
    | .ok value =>
      let (others, w) := loadCategories p w rest
      (others.map fun others => (value.map (category, ·)).toList ++ others, w)
    | .error (.undecodable c fault) =>
      loadCategories p (w.note (.error (SettingsError.undecodable c fault).message)) rest
    | .error e => (.error e, w)

/-- All values in the store. -/
def loadStored (p : Project δ) (w : Workspace σ) :
    Except SettingsError (List (Category × Json)) × Workspace σ :=
  p.loadCategories w Category.all

/-- A list with the entries of another one that it lacks. -/
def appendMissing {α : Type} [BEq α] (current new : List α) : List α :=
  new.foldl (fun list item => if list.contains item then list else list ++ [item]) current

/-- Merges a value into its category: lists gain what they lack. -/
def mergeValue (p : Project δ) (category : Category) (value : Json) : Except SettingsError (Project δ) := do
  let s := p.settings
  let keeping (settings : Settings) : Project δ := { p with settings }
  match category with
  | .projectSettings =>
    match value.field? "project_directory" with
    | some directory => .ok (p.setDirectory (← category.decodeValue directory))
    | none => .ok p
  | .sysPath => .ok (keeping { s with sysPath := appendMissing s.sysPath (← category.decodeValue value) })
  | .bookmarks =>
    .ok (keeping { s with bookmarks := appendMissing s.bookmarks (← category.decodeValue value) })
  | .modules => .ok (keeping { s with modules := appendMissing s.modules (← category.decodeValue value) })
  | .files => .ok (keeping { s with files := appendMissing s.files (← category.decodeValue value) })
  | .scripts => .ok (keeping { s with scripts := appendMissing s.scripts (← category.decodeValue value) })

/-- Merges values into their categories, up to the first that cannot be decoded. -/
def mergeValues (p : Project δ) : List (Category × Json) → Except SettingsError Unit × Project δ
  | [] => (.ok (), p)
  | (category, value) :: rest =>
    match p.mergeValue category value with
    | .ok p => mergeValues p rest
    | .error e => (.error e, p)

/-- Brings roots from one list of entries to another.  The new entries are resolved before any old one is
dropped. -/
def reconcile {κ : Type} [BEq κ] (previous new : List κ) (current resolved : Roots κ) :
    SettingsChange × Roots κ :=
  let dropped := previous.filter fun key => !new.contains key
  let failures := dropped.foldl Ledger.erase current.failures
  let (stale, nodes) := dropped.foldl (fun (acc : List Node × Ledger κ Node) key =>
    (acc.1 ++ (acc.2.find? key).toList, acc.2.erase key)) ([], current.nodes)
  let additional := resolved.nodes.values
  ({ changed := !stale.isEmpty || !additional.isEmpty, stale, additional },
    { nodes := nodes.extend resolved.nodes, failures := failures.extend resolved.failures })

/-- The entries of a list that another one lacks. -/
def added {κ : Type} [BEq κ] (previous new : List κ) : List κ :=
  new.filter fun key => !previous.contains key

/-- Replaces the tracked modules. -/
def setModules (p : Project δ) (new : List String) (w : Workspace σ) :
    SettingsChange × Project δ × Workspace σ :=
  let (resolved, w) := w.run (Search.moduleRoots p.settings.sysPath (added p.settings.modules new))
  let (change, modules) := reconcile p.settings.modules new p.modules resolved
  let p := { p with modules, settings := { p.settings with modules := new } }
  (change, p, p.refreshScope w)

/-- Replaces the tracked scripts. -/
def setScripts (p : Project δ) (new : List Path) (w : Workspace σ) :
    SettingsChange × Project δ × Workspace σ :=
  let (resolved, w) := w.run (Search.scriptRoots p.settings.sysPath (added p.settings.scripts new))
  let (change, scripts) := reconcile p.settings.scripts new p.scripts resolved
  let p := { p with scripts, settings := { p.settings with scripts := new } }
  (change, p, p.refreshScope w)

/-- Replaces the search path.  A new one has everything resolved again. -/
def setSearchPath (p : Project δ) (new : List Path) (w : Workspace σ) :
    SettingsChange × Project δ × Workspace σ :=
  if new == p.settings.sysPath then ({ changed := false }, p, w)
  else
    let (p, w) := rebuild { p with settings := { p.settings with sysPath := new } } w
    ({ changed := true }, p, w)

/-- Replaces the settings of a category.  A value that cannot be decoded changes nothing. -/
def setSettings (p : Project δ) (category : Category) (value : Json) (w : Workspace σ) :
    Except SettingsError (SettingsChange × Project δ × Workspace σ) := do
  match category with
  | .projectSettings =>
    let new : ProjectSettings ← category.decodeValue value
    .ok ({ changed := true }, p.setDirectory new.directory, w)
  | .modules => .ok (p.setModules (← category.decodeValue value) w)
  | .scripts => .ok (p.setScripts (← category.decodeValue value) w)
  | .sysPath => .ok (p.setSearchPath (← category.decodeValue value) w)
  | .bookmarks =>
    let new : List Bookmark ← category.decodeValue value
    .ok ({ changed := new != p.settings.bookmarks },
      { p with settings := { p.settings with bookmarks := new } }, w)
  | .files =>
    let new : List Path ← category.decodeValue value
    .ok ({ changed := new != p.settings.files }, { p with settings := { p.settings with files := new } }, w)

/-- Adds a bookmark. -/
def addBookmark (p : Project δ) (bookmark : Bookmark) : Project δ :=
  { p with settings := { p.settings with bookmarks := p.settings.bookmarks ++ [bookmark] } }

/-- Takes a bookmark out. -/
def removeBookmark (p : Project δ) (index : Nat) : Option Bookmark × Project δ :=
  match p.settings.bookmarks[index]? with
  | some bookmark =>
    (some bookmark,
      { p with settings := { p.settings with bookmarks := p.settings.bookmarks.eraseIdx index } })
  | none => (none, p)

/-- Stores some categories, up to the first that cannot be stored. -/
def persistCategories (p : Project δ) (w : Workspace σ) :
    List Category → Except SettingsError Unit × Project δ × Workspace σ
  | [] => (.ok (), p, w)
  | category :: rest =>
    let (result, store, files) := SettingsStore.save p.store w.files category (p.value category true)
    let p := { p with store }
    let w := { w with files }
    match result with
    | .ok () => persistCategories p w rest
    | .error e => (.error e, p, w)

/-- Stores all settings. -/
def persist (p : Project δ) (w : Workspace σ) : Except SettingsError Unit × Project δ × Workspace σ :=
  p.persistCategories w Category.all

/-- Opens the project of a store: the stored settings, with what the user adds, are resolved and stored. -/
def openStored (store : δ) (directory : Option Path) (user : UserScope) (runtime : List Path)
    (w : Workspace σ) : Except SettingsError (Project δ) × Workspace σ :=
  let p := setDirectory { store } directory
  match p.loadStored w with
  | (.error e, w) => (.error e, w)
  | (.ok stored, w) =>
    match p.mergeValues stored with
    | (.error e, _) => (.error e, w)
    | (.ok (), p) =>
      let (scope, lines) := ScopeSettings.merge w.files (!stored.isEmpty) p.scopeSettings user runtime
      let (p, w) := p.loadScope scope { w with log := w.log ++ lines }
      let (p, w) := p.rebuild w
      match p.persist w with
      | (.error e, _, w) => (.error e, w)
      | (.ok (), p, w) => (.ok p, w)

end Project

end CallGraph
