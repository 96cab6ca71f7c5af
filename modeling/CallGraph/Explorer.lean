import CallGraph.Frontier.Replay
import CallGraph.Settings.Project

/-!
# Explorers

An `Explorer` is a navigation whose column 0 shows the roots of a project.  It applies changes of the
settings to both and keeps the bookmarks.
-/

namespace CallGraph

/-- A project and the navigation over it. -/
structure Explorer (σ δ : Type) where
  project : Project δ
  navigation : Navigation σ

namespace Explorer

variable {σ δ : Type} [SettingsStore δ]

/-- The explorer of a project. -/
def ofProject (project : Project δ) (w : Workspace σ) : Explorer σ δ :=
  let (config, w) := w.getConfig
  let navigation : Navigation σ := ⟨w, .empty config.textCacheSize.toNat⟩
  { project, navigation := navigation.setRoots project.rootNodes }

/-- The workspace. -/
def workspace (x : Explorer σ δ) : Workspace σ :=
  x.navigation.workspace

/-- The explorer with another workspace. -/
def withWorkspace (x : Explorer σ δ) (w : Workspace σ) : Explorer σ δ :=
  { x with navigation := { x.navigation with workspace := w } }

/-- Writes to the log. -/
def note (x : Explorer σ δ) (line : LogLine) : Explorer σ δ :=
  x.withWorkspace (x.workspace.note line)

/-- Stores the settings. -/
def persist (x : Explorer σ δ) : Except SettingsError Unit × Explorer σ δ :=
  let (result, project, w) := x.project.persist x.workspace
  (result, { x with project }.withWorkspace w)

/-- Shows the roots of the project and follows a walk from them. -/
def restore (x : Explorer σ δ) (walk : List Element) : ReplayOutcome × Explorer σ δ :=
  let (outcome, navigation) := (x.navigation.setRoots x.project.rootNodes).openBookmark walk
  (outcome, { x with navigation })

/-- Brings the columns in line with a change of the settings; `walk` is the path before the change. -/
def showChange (x : Explorer σ δ) (category : Category) (change : SettingsChange) (walk : List Element) :
    Explorer σ δ :=
  if change.changed then
    match category with
    | .sysPath =>
      let (outcome, x) := x.restore walk
      if outcome.isExact then x else x.note (.info "Search path changed; navigation path partly restored")
    | .modules | .scripts =>
      { x with navigation := (x.navigation.removeRoots change.stale).addRoots change.additional }
    | _ => x
  else x

/-- Replaces the settings of a category, brings the columns in line, and stores the settings. -/
def applySettings (x : Explorer σ δ) (category : Category) (value : Json) :
    Except SettingsError SettingsChange × Explorer σ δ :=
  let walk := x.navigation.frontier.elementPath
  match x.project.setSettings category value x.workspace with
  | .error e => (.error e, x)
  | .ok (change, project, w) =>
    let x := ({ x with project }.withWorkspace w).showChange category change walk
    let (result, x) := x.persist
    (result.map fun () => change, x)

/-- Resolves all roots again and returns to the current path. -/
def reload (x : Explorer σ δ) : ReplayOutcome × Explorer σ δ :=
  let walk := x.navigation.frontier.elementPath
  let (project, w) := x.project.rebuild x.workspace.cancelSearches
  ({ x with project }.withWorkspace w).restore walk

/-- The bookmarks. -/
def bookmarks (x : Explorer σ δ) : List Bookmark :=
  x.project.settings.bookmarks

/-- Makes the current path a bookmark; gives its index.  An empty path makes none. -/
def addBookmark (x : Explorer σ δ) : Except SettingsError (Option Nat) × Explorer σ δ :=
  let walk := x.navigation.frontier.elementPath
  if walk.isEmpty then (.ok none, x.note (.info "Empty bookmark ignored."))
  else
    let index := x.bookmarks.length
    let (result, x) := { x with project := x.project.addBookmark walk }.persist
    (result.map fun () => some index, x)

/-- Deletes a bookmark, if there is one at the index. -/
def deleteBookmark (x : Explorer σ δ) (index : Nat) :
    Except SettingsError (Option Bookmark) × Explorer σ δ :=
  match x.project.removeBookmark index with
  | (none, _) => (.ok none, x.note (.warn s!"No bookmark at index {index}"))
  | (some bookmark, project) =>
    let (result, x) := { x with project }.persist
    (result.map fun () => some bookmark, x)

/-- Follows the bookmark at an index, if there is one. -/
def openBookmark (x : Explorer σ δ) (index : Nat) : Option ReplayOutcome × Explorer σ δ :=
  match x.bookmarks[index]? with
  | none => (none, x)
  | some bookmark =>
    let (outcome, navigation) := x.navigation.openBookmark bookmark
    (some outcome, { x with navigation })

end Explorer

end CallGraph
