import CallGraph.CommandLine.Arguments
import CallGraph.CommandLine.Printout
import CallGraph.Explorer
import CallGraph.Source.Index

/-!
# The program

`Program.run` is a whole run of the program as a function: words of the command line, environment and files
go in; exit code, printed text, report of a failure, files and log come out.
-/

namespace CallGraph

/-- What the program takes from its environment. -/
structure Environment where
  /-- The search path, entries between colons. -/
  searchPath : Option String := none
  /-- The directory of the configuration file. -/
  configDirectory : Option Path := none

/-- Why a command fails: what went wrong, and what made it so. -/
structure Failure where
  message : String
  cause : Option String := none

/-- A failure in print. -/
def Failure.report (e : Failure) : String :=
  match e.cause with
  | some cause => s!"Error: {e.message}\n\nCaused by:\n{Lines.indent 4 cause}\n"
  | none => s!"Error: {e.message}\n"

/-- What is underneath a settings error. -/
def SettingsError.cause? : SettingsError → Option String
  | undecodable _ fault => some fault.message
  | unknownCategory _ => none
  | unsaved _ cause => some cause.message

/-- The failure of an error with settings. -/
def Failure.ofSettings (e : SettingsError) : Failure :=
  ⟨e.message, e.cause?⟩

namespace Program

/-- The program's name and version. -/
def banner : String := "Callmap v0.1.0"

/-- What a run leaves behind. -/
structure Outcome where
  exitCode : Nat := 0
  output : String := ""
  report : Option String := none
  files : FileTree
  log : List LogLine := []

/-- The explorer of a command. -/
abbrev Session := Explorer Source.Index DirectoryStore

/-- The workspace of a command, with nothing done yet. -/
def workspace [Source.Parser] (env : Environment) (files : FileTree) : Workspace Source.Index :=
  { provider := Source.Index.provider, analysis := {}, files
    config := { directory := env.configDirectory } }

/-- Opens the project that the options name and explores it.  Nothing is highlighted yet. -/
def openSession (o : Options) (env : Environment) (w : Workspace Source.Index) :
    Except SettingsError Session × Workspace Source.Index :=
  let user : UserScope :=
    { moduleNames := o.modules, files := o.files, includeRuntime := !o.ignoreRuntime
      addToSearchPath := o.searchPath }
  let store : DirectoryStore := { directory := o.directory }
  match Project.openStored store o.directory user (runtimeSearchPath env.searchPath) w with
  | (.error e, w) => (.error e, w)
  | (.ok project, w) =>
    let w := w.note (.info
      s!"Tracking {project.modules.nodes.size} modules and {project.scripts.nodes.size} scripts")
    let x := Explorer.ofProject project w
    let navigation := x.navigation.setAutoHighlight false
    (.ok { x with navigation }, navigation.workspace)

/-- The row that a name selects: the first of that name, else the first whose name starts with it. -/
def rowOf? (name : String) (elements : List Element) : Option Nat :=
  (elements.findIdx? (·.name == name)) <|> elements.findIdx? (name.toList.isPrefixOf ·.name.toList)

/-- What is told when a node is followed: nothing if it has the wanted name. -/
def detour (name : String) (index : Nat) (node : Node) : List LogLine :=
  if node.element.name == name then []
  else [.info s!"{name} not found in column {index}; following {node.text}"]

/-- Selects rows by name from a column on, up to the first name that selects none. -/
def follow (n : Navigation Source.Index) (index : Nat) :
    List String → Except FrontierError Unit × Navigation Source.Index
  | [] => (.ok (), n)
  | name :: names =>
    match n.frontier.column? index with
    | none =>
      let line := s!"Nothing to select for {name} in column {index}"
      (.ok (), { n with workspace := n.workspace.note (.warn line) })
    | some column =>
      match rowOf? name column.elements with
      | none =>
        (.ok (), { n with workspace := n.workspace.note (.warn s!"No {name} in column {index}") })
      | some row =>
        let lines := column.nodes[row]?.toList.flatMap (detour name index)
        let n : Navigation Source.Index :=
          { n with workspace := { n.workspace with log := n.workspace.log ++ lines } }
        match n.selectStrict index row with
        | (.error e, n) => (.error e, n)
        | (.ok _, n) => follow n (index + 1) names

/-- Prints the roots and what could not be resolved. -/
def showRoots (unicode : Bool) (x : Session) : List String :=
  x.navigation.frontier.lines unicode
    ++ x.project.modules.failures.values.map (fun e => s!"! {e.message}")
    ++ x.project.scripts.failures.values.map fun e => s!"! {e.message}"

/-- Prints the columns and the last selected node with its source. -/
def showPath (unicode : Bool) (n : Navigation Source.Index) : List String × Navigation Source.Index :=
  let columns := n.frontier.lines unicode
  match n.frontier.path.getLast? with
  | none => (columns, n)
  | some node =>
    let described := "" :: n.frontier.pathText :: node.lines
    let n := (n.setAutoHighlight true).waitIdle
    (columns ++ described ++ SourcePrinter.lines {} n.frontier.events, n)

/-- Prints the bookmarks. -/
def showBookmarks (bookmarks : List Bookmark) : List String :=
  if bookmarks.isEmpty then ["No bookmarks."]
  else bookmarks.mapIdx fun index bookmark =>
    Lines.padLeft 3 (toString index) ++ "  " ++ callPathText bookmark

/-- Carries a command out in a session; gives what it prints. -/
def perform (command : Command) (unicode : Bool) (x : Session) : Except Failure (List String) × Session :=
  match command with
  | .roots => (.ok (showRoots unicode x), x)
  | .explore names =>
    match follow x.navigation 0 names with
    | (.error e, navigation) => (.error ⟨e.message, none⟩, { x with navigation })
    | (.ok (), navigation) =>
      let (lines, navigation) := showPath unicode navigation
      (.ok lines, { x with navigation })
  | .bookmarks => (.ok (showBookmarks x.bookmarks), x)
  | .version => (.ok [banner], x)

/-- What a session leaves behind. -/
def Outcome.ofResult (w : Workspace Source.Index) : Except Failure (List String) → Outcome
  | .ok lines => { output := Lines.join lines, files := w.files, log := w.log }
  | .error e => { exitCode := 1, report := some e.report, files := w.files, log := w.log }

/-- Does what an invocation asks for. -/
def execute [Source.Parser] (i : Invocation) (env : Environment) (files : FileTree) : Outcome :=
  match i.command with
  | .version => { output := Lines.join [banner], files }
  | command =>
    let (config, w) := (workspace env files).getConfig
    match openSession i.options env w with
    | (.error e, w) => .ofResult w (.error (.ofSettings e))
    | (.ok x, _) =>
      let (result, x) := perform command config.unicodeRoleMarkers x
      .ofResult x.workspace result

/-- The paths that the words of a run and its environment name. -/
def pathsNamed (words : List String) (env : Environment) : List Path :=
  match Invocation.read words with
  | .error _ => []
  | .ok i =>
    i.options.directory.toList ++ env.configDirectory.toList ++ i.options.searchPath ++ i.options.files
      ++ runtimeSearchPath env.searchPath

/-- The paths that the settings of the project name. -/
def pathsSaved (words : List String) (files : FileTree) : List Path :=
  match Invocation.read words with
  | .error _ => []
  | .ok i =>
    let store : DirectoryStore := { directory := i.options.directory }
    [Category.sysPath, .scripts].flatMap fun category =>
      match store.load files category with
      | .ok (some value) => ((decode value : Except DecodeFault (List Path)).toOption).getD []
      | _ => []

/-- A run of the program. -/
def run [Source.Parser] (words : List String) (env : Environment) (files : FileTree) : Outcome :=
  match Invocation.read words with
  | .error refusal => { exitCode := refusal.exitCode, files, log := [.error refusal.message] }
  | .ok i => execute i env files

end Program

end CallGraph
