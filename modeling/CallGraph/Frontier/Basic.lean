import CallGraph.Frontier.Column
import CallGraph.Frontier.Highlight
import CallGraph.Search.Basic
import CallGraph.Tasks

/-!
# The frontier

A `Frontier` is a row of columns.  Column 0 holds the roots.  Selecting a row cancels every expansion at or
right of it, drops the columns right of it, and puts a column in their place that waits for the expansion of
the selected node.  The rows that an expansion finds are published only if it was not cancelled.  The
functions here are single steps that nothing interrupts; expansions and highlights are run between them.
-/

namespace CallGraph

/-- Why a row cannot be selected. -/
inductive FrontierError where
  | noColumn (column : Nat)
  | noRow (column row : Nat)
  deriving DecidableEq, Repr

/-- A frontier error in words. -/
def FrontierError.message : FrontierError → String
  | noColumn column => s!"no column {column}"
  | noRow column row => s!"no row {row} in column {column}"

/-- How far an expansion has come. -/
inductive Expansion.Stage where
  /-- What is left of the search for the next column's rows. -/
  | searching (search : Search (List Node))
  /-- The rows were published or thrown away. -/
  | settled

/-- An expansion of the selection in a column. -/
structure Expansion where
  column : Nat
  stage : Expansion.Stage

/-- Columns, the streams that fill and show them, and what the sink was told. -/
structure Frontier where
  slots : List Slot := [.populated []]
  /-- The handles of the highlights that were not superseded. -/
  highlights : List Token := []
  focus : Option Nat := none
  autoHighlight : Bool := true
  expansions : TaskStream Expansion := { name := "expansion" }
  renders : TaskStream Highlight := { name := "highlight" }
  highlighter : Highlighter
  events : List SinkEvent := []

namespace Frontier

/-- The frontier with nothing in column 0. -/
def empty (cacheSize : Nat) : Frontier :=
  { highlighter := .empty cacheSize }

/-- The columns. -/
def columns (f : Frontier) : List Column :=
  f.slots.map (·.column)

/-- The column of an index. -/
def column? (f : Frontier) (index : Nat) : Option Column :=
  f.slots[index]?.map (·.column)

/-- The selected nodes of columns, up to the first column without a selection. -/
def selections : List Slot → List Node
  | [] => []
  | slot :: slots =>
    match slot.column.selectedNode? with
    | some node => node :: selections slots
    | none => []

/-- The selected nodes from column 0 on. -/
def path (f : Frontier) : List Node :=
  selections f.slots

/-- The elements along the selected nodes. -/
def elementPath (f : Frontier) : List Element :=
  f.path.map Node.element

/-- The selected nodes in words. -/
def pathText (f : Frontier) : String :=
  callPathText f.elementPath

/-- Replaces column 0 and drops all others. -/
def setRoots (f : Frontier) (nodes : List Node) (c : Searches) : Frontier × Searches :=
  let (_, c) := cancelFrom 0 f.slots c
  ({ f with slots := [.populated nodes], focus := none }, c)

/-- Adds nodes at the end of column 0. -/
def addRoots (f : Frontier) (nodes : List Node) : Frontier :=
  { f with
    slots := f.slots.modifyHead fun slot =>
      { slot with column := { slot.column with nodes := slot.column.nodes ++ nodes } } }

/-- Whether a node is one of some nodes or shows what one of them shows. -/
def isAmong (nodes : List Node) (node : Node) : Bool :=
  nodes.any fun n => n.same node || n.element == node.element

/-- Takes nodes out of column 0.  If the selected one goes, so do all other columns. -/
def removeRoots (f : Frontier) (nodes : List Node) (c : Searches) : Frontier × Searches :=
  match f.slots with
  | [] => (f, c)
  | root :: rest =>
    let kept := root.column.nodes.filter fun node => !isAmong nodes node
    match root.column.selectedNode? with
    | none => ({ f with slots := { root with column := { root.column with nodes := kept } } :: rest }, c)
    | some selected =>
      if isAmong nodes selected then
        let (_, c) := cancelFrom 0 f.slots c
        ({ f with slots := [⟨{ root.column with nodes := kept, selected := none }, none⟩] }, c)
      else
        let selected := kept.findIdx? (·.same selected)
        let column := { root.column with nodes := kept, selected }
        ({ f with slots := { root with column } :: rest }, c)

/-- Selects a row, whose expansion will have a handle. -/
def choose (f : Frontier) (column row : Nat) (handle : Token) (c : Searches) :
    Except FrontierError (Node × Frontier × Searches) :=
  match f.slots[column]? with
  | none => .error (.noColumn column)
  | some slot =>
    match slot.column.nodes[row]? with
    | none => .error (.noRow column row)
    | some node =>
      let (slots, c) := cancelFrom column f.slots c
      let chosen : Slot := ⟨{ slot.column with selected := some row }, some ⟨handle, node⟩⟩
      .ok (node, { f with slots := slots.take column ++ [chosen, .populating] }, c)

/-- Fills the column right of an expansion's column, unless the expansion was cancelled. -/
def publish (f : Frontier) (c : Searches) (handle : Token) (column : Nat) (nodes : List Node) : Frontier :=
  { f with
    slots :=
      if c.isCancelled handle then f.slots
      else f.slots.modify (column + 1) fun slot => { slot with column := .populated nodes } }

/-- Puts the focus on a column.  Unless nothing is to be shown, highlights under way are cancelled, and the
selected row, if there is one, is to be shown under a handle. -/
def refocus (f : Frontier) (column : Nat) (handle : Token) (c : Searches) :
    Option Node × Frontier × Searches :=
  let f := { f with focus := some column }
  if f.autoHighlight then
    let c := f.highlights.foldl Searches.cancel c
    match (f.column? column).bind Column.selectedNode? with
    | some node => (some node, { f with highlights := [handle] }, c)
    | none => (none, { f with highlights := [] }, c)
  else (none, f, c)

/-- Tells the sink. -/
def emit (f : Frontier) (event : SinkEvent) : Frontier :=
  { f with events := f.events ++ [event], highlighter := f.highlighter.deliver event }

/-- What the sink was told since it was last asked, and the frontier after that. -/
def takeEvents (f : Frontier) : List SinkEvent × Frontier :=
  (f.events, { f with events := [] })

end Frontier

end CallGraph
