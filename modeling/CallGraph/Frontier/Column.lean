import CallGraph.Node
import CallGraph.Searches

/-!
# Columns

A `Column` shows nodes as rows, one of which may be selected.  The column right of a selection is filled by
the expansion of the selected node; until that is done it is being populated.  A `Slot` is a column with
the expansion that its selection set off.
-/

namespace CallGraph

/-- Whether a column has its rows. -/
inductive ColumnState where
  | populating
  | populated
  deriving DecidableEq, Repr

/-- The state's name. -/
def ColumnState.text : ColumnState → String
  | populating => "Populating"
  | populated => "Populated"

/-- Rows of nodes. -/
structure Column where
  nodes : List Node
  state : ColumnState
  selected : Option Nat

namespace Column

/-- A column with its rows. -/
def populated (nodes : List Node) : Column :=
  ⟨nodes, .populated, none⟩

/-- A column that waits for its rows. -/
def populating : Column :=
  ⟨[], .populating, none⟩

/-- The selected node. -/
def selectedNode? (c : Column) : Option Node :=
  c.selected.bind (c.nodes[·]?)

/-- The elements of the rows. -/
def elements (c : Column) : List Element :=
  c.nodes.map Node.element

end Column

/-- An expansion under way: its handle and the node that is expanded. -/
structure Pending where
  handle : Token
  node : Node

/-- A column and the expansion of its selection, which fills the next column. -/
structure Slot where
  column : Column
  pending : Option Pending

namespace Slot

/-- A slot whose column has its rows. -/
def populated (nodes : List Node) : Slot :=
  ⟨.populated nodes, none⟩

/-- A slot whose column waits for its rows. -/
def populating : Slot :=
  ⟨.populating, none⟩

end Slot

/-- Cancels all searches under way on behalf of a node.  A node that groups others searches for nothing and cancels
nothing. -/
def Node.cancelSearch (n : Node) (c : Searches) : Searches :=
  if n.isOrganizer then c else c.cancelAll

/-- Cancels an expansion that is not finished, and the search for its node. -/
def Pending.cancel (p : Pending) (c : Searches) : Searches :=
  if c.signals.isFinished p.handle then c else p.node.cancelSearch (c.cancel p.handle)

/-- Cancels the expansions of the slots from an index on. -/
def cancelFrom : Nat → List Slot → Searches → List Slot × Searches
  | _, [], c => ([], c)
  | index + 1, slot :: slots, c =>
    let (slots, c) := cancelFrom index slots c
    (slot :: slots, c)
  | 0, slot :: slots, c =>
    let c := match slot.pending with
      | some p => p.cancel c
      | none => c
    let (slots, c) := cancelFrom 0 slots c
    ({ slot with pending := none } :: slots, c)

end CallGraph
