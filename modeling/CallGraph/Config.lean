import CallGraph.Config.Toml
import CallGraph.Files.Tree
import CallGraph.Json.Codec
import CallGraph.Log
import CallGraph.TextCache

/-!
# Configuration

A `ConfigLayer` sets some of the configuration's values.  The values in force (`ConfigValues`) are the
defaults, overlaid by the layer of the configuration file, overlaid by the overrides of the session.  A
`UserConfig` merges them when it is first asked and keeps the result until it is told to forget it.
-/

namespace CallGraph

/-- The configuration in force. -/
structure ConfigValues where
  /-- Whether background work runs beside its caller. -/
  multithreading : Bool := true
  unicodeRoleMarkers : Bool := true
  /-- Whether contained errors are logged with all their parts. -/
  verboseErrors : Bool := false
  /-- Whether the children of a node are all names in its scope. -/
  experimentalMode : Bool := false
  logLevel : Option String := none
  textCacheSize : UInt64 := UInt64.ofNat TextCache.defaultCapacity
  deriving DecidableEq, Repr

/-- Some of the configuration's values. -/
structure ConfigLayer where
  multithreading : Option Bool := none
  unicodeRoleMarkers : Option Bool := none
  verboseErrors : Option Bool := none
  experimentalMode : Option Bool := none
  logLevel : Option String := none
  textCacheSize : Option UInt64 := none
  deriving DecidableEq, Repr

instance : Codec ConfigValues where
  encode v := .ofFields [
    ("multithreading", encode v.multithreading), ("unicode_role_markers", encode v.unicodeRoleMarkers),
    ("verbose_errors", encode v.verboseErrors), ("experimental_mode", encode v.experimentalMode),
    ("log_level", encode v.logLevel), ("text_cache_size", encode v.textCacheSize)]
  decode value := do
    let r ← RecordReader.start "ConfigValues" [
      ("multithreading", check Bool), ("unicode_role_markers", check Bool), ("verbose_errors", check Bool),
      ("experimental_mode", check Bool), ("log_level", check (Option String)),
      ("text_cache_size", check UInt64)] false false value
    let multithreading ← r.required "multithreading"
    let unicodeRoleMarkers ← r.required "unicode_role_markers"
    let verboseErrors ← r.required "verbose_errors"
    let experimentalMode ← r.required "experimental_mode"
    let logLevel ← r.optional "log_level"
    let textCacheSize ← r.required "text_cache_size"
    r.finish
    .ok { multithreading, unicodeRoleMarkers, verboseErrors, experimentalMode, logLevel, textCacheSize }

namespace ConfigLayer

instance : Codec ConfigLayer where
  encode v := .ofFields [
    ("multithreading", encode v.multithreading), ("unicode_role_markers", encode v.unicodeRoleMarkers),
    ("verbose_errors", encode v.verboseErrors), ("experimental_mode", encode v.experimentalMode),
    ("log_level", encode v.logLevel), ("text_cache_size", encode v.textCacheSize)]
  decode value := do
    let r ← RecordReader.start "ConfigLayer" [
      ("multithreading", check (Option Bool)), ("unicode_role_markers", check (Option Bool)),
      ("verbose_errors", check (Option Bool)), ("experimental_mode", check (Option Bool)),
      ("log_level", check (Option String)), ("text_cache_size", check (Option UInt64))] true true value
    let multithreading ← r.optional "multithreading"
    let unicodeRoleMarkers ← r.optional "unicode_role_markers"
    let verboseErrors ← r.optional "verbose_errors"
    let experimentalMode ← r.optional "experimental_mode"
    let logLevel ← r.optional "log_level"
    let textCacheSize ← r.optional "text_cache_size"
    r.finish
    .ok { multithreading, unicodeRoleMarkers, verboseErrors, experimentalMode, logLevel, textCacheSize }

/-- The values of a layer over others.  A text cache holds one text at least. -/
def valuesOver (layer : ConfigLayer) (base : ConfigValues) : ConfigValues :=
  { multithreading := layer.multithreading.getD base.multithreading
    unicodeRoleMarkers := layer.unicodeRoleMarkers.getD base.unicodeRoleMarkers
    verboseErrors := layer.verboseErrors.getD base.verboseErrors
    experimentalMode := layer.experimentalMode.getD base.experimentalMode
    logLevel := layer.logLevel <|> base.logLevel
    textCacheSize := (layer.textCacheSize.map (max 1)).getD base.textCacheSize }

/-- The layer with one entry of a configuration file, if the entry has a meaning. -/
def set? (layer : ConfigLayer) : String × Toml.Value → Option ConfigLayer
  | ("multithreading", .bool value) => some { layer with multithreading := some value }
  | ("unicode_role_markers", .bool value) => some { layer with unicodeRoleMarkers := some value }
  | ("verbose_errors", .bool value) => some { layer with verboseErrors := some value }
  | ("experimental_mode", .bool value) => some { layer with experimentalMode := some value }
  | ("log_level", .text value) => some { layer with logLevel := some value }
  | ("text_cache_size", .integer value) =>
    if 0 ≤ value then some { layer with textCacheSize := some (UInt64.ofNat value.toNat) } else none
  | _ => none

/-- The layer that a configuration file's text describes. -/
def ofText? (text : String) : Option ConfigLayer := do
  let entries ← Toml.read text
  entries.foldlM set? {}

end ConfigLayer

/-- Why a configuration file gives no layer. -/
inductive ConfigError where
  | unreadable (path : Path) (cause : FileError)
  | malformed (path : Path)

/-- A configuration error in words. -/
def ConfigError.message : ConfigError → String
  | .unreadable path cause => s!"cannot read config {path}: {cause.message}"
  | .malformed path => s!"invalid config {path}"

/-- The layers of a session's configuration and the values merged from them, if they were asked for. -/
structure UserConfig where
  /-- The directory of the configuration file. -/
  directory : Option Path := none
  overrides : ConfigLayer := {}
  merged : Option ConfigValues := none

namespace UserConfig

/-- The environment variable that names the directory of the configuration file. -/
def directoryVariable : String := "CALLMAP_RC_DIRECTORY"

/-- The configuration file's name. -/
def fileName : String := "callmap.toml"

/-- The path of the configuration file. -/
def file? (c : UserConfig) : Option Path :=
  c.directory.map (·.child fileName)

/-- The layer of the configuration file; without a file it is empty. -/
def fileLayer (c : UserConfig) (files : FileTree) : Except ConfigError ConfigLayer :=
  match c.file? with
  | none => .ok {}
  | some path =>
    if files.isFile path then
      match files.readText path with
      | .error cause => .error (.unreadable path cause)
      | .ok text =>
        match ConfigLayer.ofText? text with
        | some layer => .ok layer
        | none => .error (.malformed path)
    else .ok {}

/-- Merges the layers; a file that gives none is passed over with a warning. -/
def merge (c : UserConfig) (files : FileTree) : ConfigValues × List LogLine :=
  match c.fileLayer files with
  | .ok layer => (c.overrides.valuesOver (layer.valuesOver {}), [])
  | .error e => (c.overrides.valuesOver {}, [.warn s!"{e.message}; using default configuration"])

/-- The values in force, merged if they are not at hand. -/
def get (c : UserConfig) (files : FileTree) : ConfigValues × UserConfig × List LogLine :=
  match c.merged with
  | some values => (values, c, [])
  | none =>
    let (values, log) := c.merge files
    (values, { c with merged := some values }, log)

/-- Forgets the merged values. -/
def invalidate (c : UserConfig) : UserConfig :=
  { c with merged := none }

/-- Replaces the overrides and forgets the merged values. -/
def override (c : UserConfig) (layer : ConfigLayer) : UserConfig :=
  { c with overrides := layer, merged := none }

end UserConfig

end CallGraph
