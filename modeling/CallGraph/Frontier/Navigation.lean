import CallGraph.Frontier.Basic
import CallGraph.Search.Neighbours
import CallGraph.Workspace

/-!
# Navigating

A `Navigation` is a frontier over a workspace.  Expansions and highlights are tasks of two streams.  Without
multithreading a task is run when it is submitted; with it, a task waits for the worker of its stream, whose
steps are `Navigation.stepExpansion` and `Navigation.stepRender`.
-/

namespace CallGraph

/-- A frontier over a workspace. -/
structure Navigation (σ : Type) where
  workspace : Workspace σ
  frontier : Frontier

namespace Navigation

variable {σ : Type}

/-- Changes frontier and searches together. -/
def step (n : Navigation σ) (f : Frontier × Searches) : Navigation σ :=
  ⟨{ n.workspace with searches := f.2 }, f.1⟩

/-! ### Expansions -/

/-- Publishes what the expansion of a column found, unless it was cancelled. -/
def publish (n : Navigation σ) (handle : Token) (column : Nat) (nodes : List Node) : Navigation σ :=
  { n with frontier := n.frontier.publish n.workspace.searches handle column nodes }

/-- Marks a task as finished. -/
def finish (n : Navigation σ) (handle : Token) : Navigation σ :=
  { n with workspace := n.workspace.signal (·.finish handle) }

/-- Runs an expansion to its end. -/
def runExpansion (n : Navigation σ) (handle : Token) (e : Expansion) : Navigation σ :=
  if n.workspace.searches.isCancelled handle then n.finish handle
  else
    match e.stage with
    | .searching search =>
      let (nodes, w) := n.workspace.run search
      (publish { n with workspace := w } handle e.column nodes).finish handle
    | .settled => n.finish handle

/-- One step of the expansion worker: it takes up the next task, goes on with the search of the one it runs,
publishes what the search found, or ends the task. -/
def stepExpansion (n : Navigation σ) : Navigation σ :=
  match n.frontier.expansions.running with
  | none =>
    let (expansions, signals) := n.frontier.expansions.start n.workspace.searches.signals
    ⟨n.workspace.signal fun _ => signals, { n.frontier with expansions }⟩
  | some (handle, e) =>
    match e.stage with
    | .searching (.done nodes) =>
      let n := n.publish handle e.column nodes
      { n with
        frontier := { n.frontier with
          expansions := n.frontier.expansions.resume { e with stage := .settled } } }
    | .searching search =>
      let (rest, w) := n.workspace.advance search
      ⟨w, { n.frontier with expansions := n.frontier.expansions.resume { e with stage := .searching rest } }⟩
    | .settled =>
      let (expansions, signals) := n.frontier.expansions.finish n.workspace.searches.signals
      ⟨n.workspace.signal fun _ => signals, { n.frontier with expansions }⟩

/-- Lets the expansion worker go on until it has nothing to do or is held back. -/
def workExpansions (n : Navigation σ) : Navigation σ :=
  (4 * n.frontier.expansions.waiting.length + 3).repeat stepExpansion n

/-! ### Highlights -/

/-- What to tell the sink of an element; its text is read if need be. -/
def load (n : Navigation σ) (e : Element) : SinkEvent × Navigation σ :=
  let (event, highlighter, lines) := n.frontier.highlighter.load n.workspace.files e
  (event, ⟨{ n.workspace with log := n.workspace.log ++ lines }, { n.frontier with highlighter }⟩)

/-- Runs a highlight to its end. -/
def runRender (n : Navigation σ) (handle : Token) (e : Element) : Navigation σ :=
  if n.workspace.searches.isCancelled handle then n.finish handle
  else
    let (event, n) := n.load e
    let event := Highlighter.check (n.workspace.searches.isCancelled handle) event
    finish { n with frontier := n.frontier.emit event } handle

/-- One step of the highlight worker: it takes up the next task, loads its text, checks it for the last
time, or delivers it. -/
def stepRender (n : Navigation σ) : Navigation σ :=
  match n.frontier.renders.running with
  | none =>
    let (renders, signals) := n.frontier.renders.start n.workspace.searches.signals
    ⟨n.workspace.signal fun _ => signals, { n.frontier with renders }⟩
  | some (handle, h) =>
    match h.stage with
    | .queued =>
      let (event, n) := n.load h.element
      { n with
        frontier := { n.frontier with
          renders := n.frontier.renders.resume { h with stage := .loaded event } } }
    | .loaded event =>
      let event := Highlighter.check (n.workspace.searches.isCancelled handle) event
      { n with
        frontier := { n.frontier with
          renders := n.frontier.renders.resume { h with stage := .checked event } } }
    | .checked event =>
      let f := n.frontier.emit event
      let (renders, signals) := f.renders.finish n.workspace.searches.signals
      ⟨n.workspace.signal fun _ => signals, { f with renders }⟩

/-- Whether the highlight worker is about to hand a text to the sink. -/
def isAtSink (n : Navigation σ) : Bool :=
  match n.frontier.renders.running with
  | some (_, { stage := .checked (.render _ _ _), .. }) => true
  | _ => false

/-- Lets the highlight worker go on until it has nothing to do or meets a sink that takes no text. -/
def workRenders (sinkIsHeld : Bool) (n : Navigation σ) : Navigation σ :=
  (4 * n.frontier.renders.waiting.length + 3).repeat
    (fun n => if sinkIsHeld && n.isAtSink then n else n.stepRender) n

/-- Lets both workers go on until they have nothing to do or are held back. -/
def work (sinkIsHeld : Bool) (n : Navigation σ) : Navigation σ :=
  n.workExpansions.workRenders sinkIsHeld

/-- Lets both workers go on until they have nothing to do. -/
def waitIdle (n : Navigation σ) : Navigation σ :=
  n.work false

/-! ### What a caller does -/

/-- Replaces column 0 and drops all others. -/
def setRoots (n : Navigation σ) (nodes : List Node) : Navigation σ :=
  n.step (n.frontier.setRoots nodes n.workspace.searches)

/-- Adds nodes at the end of column 0. -/
def addRoots (n : Navigation σ) (nodes : List Node) : Navigation σ :=
  { n with frontier := n.frontier.addRoots nodes }

/-- Takes nodes out of column 0. -/
def removeRoots (n : Navigation σ) (nodes : List Node) : Navigation σ :=
  n.step (n.frontier.removeRoots nodes n.workspace.searches)

/-- Puts the focus on a column; gives the handle under which its selected row is to be shown, if it is. -/
def refocus (n : Navigation σ) (column : Nat) : Token × Option Node × Navigation σ :=
  let (handle, w) := n.workspace.freshToken
  let (node, f, searches) := n.frontier.refocus column handle w.searches
  (handle, node, ⟨{ w with searches }, f⟩)

/-- Puts the focus on a column and shows its selected row. -/
def focus (n : Navigation σ) (column : Nat) : Navigation σ :=
  let (handle, node, n) := n.refocus column
  match node with
  | none => n
  | some node =>
    let (config, w) := n.workspace.getConfig
    let n := { n with workspace := w }
    if config.multithreading then
      { n with
        frontier := { n.frontier with
          renders := n.frontier.renders.submit handle { element := node.element } } }
    else n.runRender handle node.element

/-- Turns the showing of selected rows on or off. -/
def setAutoHighlight (n : Navigation σ) (enabled : Bool) : Navigation σ :=
  let w := n.workspace.note (.info ("Auto highlight toggled " ++ if enabled then "on" else "off"))
  let n : Navigation σ := ⟨w, { n.frontier with autoHighlight := enabled }⟩
  match enabled, n.frontier.focus with
  | true, some column => n.focus column
  | _, _ => n

/-- Selects a row; gives the node, and the handle and the expansion that are to fill the next column. -/
def choose (n : Navigation σ) (column row : Nat) :
    Except FrontierError (Node × Token × Expansion × Navigation σ) :=
  let (handle, w) := n.workspace.freshToken
  match n.frontier.choose column row handle w.searches with
  | .error e => .error e
  | .ok (node, f, searches) =>
    .ok (node, handle, { column, stage := .searching (node.next handle) }, ⟨{ w with searches }, f⟩)

/-- Hands an expansion to its stream, or runs it if there is no multithreading. -/
def submit (n : Navigation σ) (handle : Token) (e : Expansion) : Navigation σ :=
  let (config, w) := n.workspace.getConfig
  let n := { n with workspace := w }
  if config.multithreading then
    { n with frontier := { n.frontier with expansions := n.frontier.expansions.submit handle e } }
  else n.runExpansion handle e

/-- Selects a row and expands it, at once if `strict`, else on the expansion stream. -/
def selectWith (strict : Bool) (n : Navigation σ) (column row : Nat) :
    Except FrontierError Node × Navigation σ :=
  match n.choose column row with
  | .error e => (.error e, n)
  | .ok (node, handle, expansion, n) =>
    let n := n.focus column
    (.ok node, if strict then n.runExpansion handle expansion else n.submit handle expansion)

/-- Selects a row and has it expanded. -/
def select (n : Navigation σ) (column row : Nat) : Except FrontierError Node × Navigation σ :=
  n.selectWith false column row

/-- Selects a row and expands it at once. -/
def selectStrict (n : Navigation σ) (column row : Nat) : Except FrontierError Node × Navigation σ :=
  n.selectWith true column row

end Navigation

end CallGraph
