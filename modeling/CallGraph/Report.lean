import CallGraph.Explorer
import CallGraph.Source.Outline

/-!
# Reports

A report is a value as JSON for those who want to look at it from outside.  Unlike the forms in which
settings are stored, reports are never read back.
-/

namespace CallGraph

/-- The report of an error of some kind. -/
def failureReport (kind message : String) : Json :=
  .ofFields [("error", .text kind), ("message", .text message)]

/-- The report of a file error. -/
def FileError.report (e : FileError) : Json :=
  failureReport "Io" e.message

/-- The report of an error of a provider. -/
def ProviderError.report (e : ProviderError) : Json :=
  let kind := match e with
    | .cancelled => "Cancelled"
    | .failed _ => "Failed"
    | .notFound _ => "NotFound"
    | .unparsable _ => "Parse"
    | .outside _ => "Io"
  failureReport kind e.message

/-- The report of an entry that cannot be resolved. -/
def ResolutionError.report (e : ResolutionError) : Json :=
  let kind := match e with
    | .unknownModule _ => "Module"
    | .unreadableScript _ _ => "Script"
    | .refused _ _ => "Provider"
  failureReport kind e.message

/-- The report of a row that cannot be selected. -/
def FrontierError.report (e : FrontierError) : Json :=
  let kind := match e with
    | .noColumn _ => "NoSuchColumn"
    | .noRow _ _ => "NoSuchRow"
  failureReport kind e.message

/-- The report of an error with settings. -/
def SettingsError.report (e : SettingsError) : Json :=
  let kind := match e with
    | .undecodable _ _ => "Decode"
    | .unknownCategory _ => "UnknownCategory"
    | .unsaved _ _ => "Persistence"
  failureReport kind e.message

/-- The report of a configuration file that cannot be used. -/
def ConfigError.report : ConfigError → Json
  | .unreadable path cause => failureReport "Read" (unreadable path cause).message
  | .malformed _ => .ofFields [("error", .text "Parse")]

/-- The report of log lines. -/
def logReport (lines : List LogLine) : Json :=
  .ofList (fun l => .array [.text l.level.text, .text l.text]) lines

/-- The report of a degree of agreement. -/
def MatchDegree.report : MatchDegree → Json
  | exact => .text "Exact"
  | sameExceptLocation => .text "SameExceptLocation"
  | sameExceptName => .text "SameExceptName"

/-! ### Outlines -/

namespace Source

/-- The report of a place: line and column. -/
def placeReport (l : Location) : Json :=
  .array [encode l.line, encode l.column]

/-- The report of the scope of an index.  The extent of the file itself is left out. -/
def Scope.report (index : Nat) (s : Scope) : Json :=
  .ofFields [
    ("name", .text s.name), ("kind", .text s.kind.text), ("parent", Json.ofOption Json.ofNat s.parent),
    ("start", placeReport s.start), ("end", placeReport s.stop),
    ("span", if index = 0 then .null else .array [placeReport s.spanStart, placeReport s.spanStop])]

/-- The report of a site. -/
def Site.report (s : Site) : Json :=
  .array [.ofNat s.scope, .text s.name, encode s.qualifier, encode s.role, placeReport s.start,
    placeReport s.stop]

/-- The report of an occurrence of a name. -/
def NameRef.report (n : NameRef) : Json :=
  .array [.ofNat n.scope, .text n.name, .text n.context.text, encode n.qualifier, placeReport n.start,
    placeReport n.stop]

/-- The report of an import. -/
def Import.report (i : Import) : Json :=
  .ofFields [
    ("local", .text i.localName), ("module", .text i.module), ("attr", encode i.attr),
    ("aliased", .bool i.aliased), ("start", placeReport i.start), ("end", placeReport i.stop),
    ("bound", encode i.boundModule)]

/-- The fields of an outline's report. -/
def Outline.reportFields (o : Outline) : List (String × Json) :=
  [("path", encode o.path), ("module", .text o.module), ("package", .bool o.isPackage),
    ("scopes", .array (o.scopes.zipIdx.map fun (s, i) => s.report i)),
    ("sites", .ofList Site.report o.sites), ("names", .ofList NameRef.report o.names),
    ("imports", .ofList Import.report o.imports)]

end Source

/-! ### Nodes and roots -/

/-- The report of a node. -/
def Node.report (n : Node) : Json :=
  .ofFields [("d", .text n.text), ("e", encode n.element), ("organizer", .bool n.isOrganizer)]

/-- The report of entries and what they came to. -/
def Ledger.report {κ ν : Type} [Codec κ] (f : ν → Json) (m : Ledger κ ν) : Json :=
  .ofList (fun e => .array [encode e.1, f e.2]) m.entries

/-- The report of resolved entries. -/
def Roots.report {κ : Type} [Codec κ] (r : Roots κ) : Json :=
  .ofFields [("nodes", r.nodes.report Node.report), ("failures", r.failures.report ResolutionError.report)]

/-! ### Projects and explorers -/

/-- The report of nodes in words. -/
def nodeTexts (nodes : List Node) : Json :=
  .ofList (fun n => .text n.text) nodes

/-- The report of a change of the settings. -/
def SettingsChange.report (c : SettingsChange) : Json :=
  .ofFields [
    ("changed", .bool c.changed), ("stale", nodeTexts c.stale), ("additional", nodeTexts c.additional)]

/-- The report of a project in a workspace. -/
def Project.report {δ σ : Type} (p : Project δ) (w : Workspace σ) : Json :=
  .ofFields [
    ("directory", encode p.directory), ("sys_path", encode p.settings.sysPath),
    ("modules", encode p.settings.modules), ("files", encode p.settings.files),
    ("scripts", encode p.settings.scripts),
    ("bookmarks", .ofList (fun b => .text (callPathText b)) p.settings.bookmarks),
    ("module_nodes", p.modules.nodes.report fun n => .text n.text),
    ("script_nodes", p.scripts.nodes.report fun n => .text n.text),
    ("module_failures", p.modules.failures.report ResolutionError.report),
    ("script_failures", p.scripts.failures.report ResolutionError.report),
    ("search_path", encode w.searchPath), ("scope", encode w.scope.snapshot)]

/-- The report of a bookmark that was followed. -/
def ReplayOutcome.report (o : ReplayOutcome) : Json :=
  .ofFields [
    ("steps", .ofList (fun t => .array [.ofNat t.column, .ofNat t.row, t.degree.report]) o.steps),
    ("stopped_at", Json.ofOption Json.ofNat o.stoppedAt), ("exact", .bool o.isExact),
    ("notes", .ofList .text o.notes)]

/-- The report of a column. -/
def Column.report (c : Column) : Json :=
  .ofFields [
    ("state", .text c.state.text), ("selected", Json.ofOption Json.ofNat c.selected),
    ("rows", .ofList (fun n => .text (n.element.label false ++ " | " ++ n.text)) c.nodes)]

/-- The report of a frontier. -/
def Frontier.report (f : Frontier) : Json :=
  .ofFields [
    ("columns", .ofList Column.report f.columns), ("focus", Json.ofOption Json.ofNat f.focus),
    ("path", .text f.pathText)]

/-- The report of what a sink was told. -/
def SinkEvent.report : SinkEvent → Json
  | reset => .text "reset"
  | render reuse text span =>
    .ofFields [("reuse", .bool reuse), ("text", .text text), ("span", encode span)]

end CallGraph
