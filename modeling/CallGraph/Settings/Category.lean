import CallGraph.Bookmark
import CallGraph.Files.Tree
import CallGraph.Json.Reader
import CallGraph.Location

/-!
# Settings

The settings of a project come in six categories, each of which is stored and edited as one JSON value.
-/

namespace CallGraph

/-- A group of settings. -/
inductive Category where
  | projectSettings
  | sysPath
  | bookmarks
  | modules
  | files
  | scripts
  deriving DecidableEq, Repr

/-- The project's own settings. -/
structure ProjectSettings where
  directory : Option Path := none
  deriving BEq

/-- All settings of a project. -/
structure Settings where
  projectSettings : ProjectSettings := {}
  sysPath : List Path := []
  bookmarks : List Bookmark := []
  modules : List String := []
  /-- Kept for the user; nothing is resolved from it. -/
  files : List Path := []
  scripts : List Path := []
  deriving BEq

instance : Codec ProjectSettings where
  encode s := .ofFields [("project_directory", encode s.directory)]
  decode value := do
    let r ← RecordReader.start "ProjectSettings"
      [("project_directory", check (Option Path))] false false value
    let directory ← r.optional "project_directory"
    r.finish
    .ok { directory }

/-- Why a stored or given value is no settings of a category. -/
inductive SettingsFault where
  | text (fault : Json.ReadFault)
  | value (fault : DecodeFault)

/-- A settings fault in words. -/
def SettingsFault.message : SettingsFault → String
  | text fault => fault.message
  | value fault => fault.message

/-- What goes wrong with settings. -/
inductive SettingsError where
  | undecodable (category : Category) (fault : SettingsFault)
  | unknownCategory (name : String)
  | unsaved (path : Path) (cause : FileError)

namespace Category

/-- All categories in order. -/
def all : List Category := [projectSettings, sysPath, bookmarks, modules, files, scripts]

/-- The category's name. -/
def name : Category → String
  | projectSettings => "project_settings"
  | sysPath => "sys_path"
  | bookmarks => "bookmarks"
  | modules => "modules"
  | files => "files"
  | scripts => "scripts"

/-- The category of a name. -/
def ofName (name : String) : Except SettingsError Category :=
  match all.find? (·.name == name) with
  | some category => .ok category
  | none => .error (.unknownCategory name)

end Category

/-- A settings error in words. -/
def SettingsError.message : SettingsError → String
  | undecodable category fault => s!"cannot decode settings for {category.name}: {fault.message}"
  | unknownCategory name => s!"unknown settings category {name}"
  | unsaved path cause => s!"cannot save settings to {path}: {cause.message}"

/-- Decodes a value of a category. -/
def Category.decodeValue {α : Type} [Codec α] (category : Category) (value : Json) :
    Except SettingsError α :=
  match (decode value : Except DecodeFault α) with
  | .ok a => .ok a
  | .error fault => .error (.undecodable category (.value fault))

/-- The JSON form of a category. -/
def Settings.value (s : Settings) : Category → Json
  | .projectSettings => encode s.projectSettings
  | .sysPath => encode s.sysPath
  | .bookmarks => encode s.bookmarks
  | .modules => encode s.modules
  | .files => encode s.files
  | .scripts => encode s.scripts

/-- The JSON form under which a category is stored.  The project directory is left out, as it is where the
settings are stored. -/
def Settings.storedValue (s : Settings) : Category → Json
  | .projectSettings => .object []
  | category => s.value category

end CallGraph
