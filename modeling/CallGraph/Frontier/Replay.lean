import CallGraph.Bookmark
import CallGraph.Frontier.Navigation

/-!
# Following bookmarks

A bookmark is followed column by column: in each the exact match is selected, else the first near miss.
Where nothing matches, the first row is selected and the walk stops.
-/

namespace CallGraph

/-- A step of a bookmark that was followed. -/
structure ReplayStep where
  column : Nat
  row : Nat
  degree : MatchDegree
  deriving DecidableEq, Repr

/-- How far a bookmark was followed. -/
structure ReplayOutcome where
  steps : List ReplayStep := []
  /-- The column where nothing matched. -/
  stoppedAt : Option Nat := none
  deriving DecidableEq, Repr

namespace ReplayOutcome

/-- Whether every element was found exactly. -/
def isExact (o : ReplayOutcome) : Bool :=
  o.stoppedAt.isNone && o.steps.all (·.degree == .exact)

/-- What to tell of a near miss that was followed. -/
def nearMissText (note : String) : String :=
  s!"Exact bookmark not found. Nearest match followed. ({note})"

/-- What to tell of the steps. -/
def notes (o : ReplayOutcome) : List String :=
  (o.steps.filterMap (·.degree.note?)).map nearMissText

end ReplayOutcome

namespace Navigation

variable {σ : Type}

/-- Waits for the rows of a column, which come from the expansion left of it. -/
def waitColumn (n : Navigation σ) (column : Nat) : Navigation σ :=
  match column with
  | 0 => n
  | left + 1 =>
    match n.frontier.slots[left]?.bind (·.pending) with
    | some p => if n.workspace.searches.signals.isFinished p.handle then n else n.workExpansions
    | none => n

/-- Selects a row on a walk; says whether it could be selected. -/
def followRow (n : Navigation σ) (column row : Nat) : Bool × Navigation σ :=
  match n.selectStrict column row with
  | (.ok _, n) => (true, n)
  | (.error e, n) =>
    (false, { n with workspace := n.workspace.note (.warn s!"Bookmark replay stopped: {e.message}") })

/-- Follows the elements of a bookmark from a column on. -/
def follow (n : Navigation σ) (column : Nat) : List Element → ReplayOutcome × Navigation σ
  | [] => ({}, n)
  | target :: targets =>
    let n := n.waitColumn column
    match n.frontier.column? column with
    | none => ({ stoppedAt := some column }, n)
    | some current =>
      match findMatch current.elements target with
      | some (row, degree) =>
        let n := match degree.note? with
          | some note => { n with workspace := n.workspace.note (.info (ReplayOutcome.nearMissText note)) }
          | none => n
        match n.followRow column row with
        | (false, n) => ({ stoppedAt := some column }, n)
        | (true, n) =>
          let (outcome, n) := follow n (column + 1) targets
          ({ outcome with steps := ⟨column, row, degree⟩ :: outcome.steps }, n)
      | none =>
        let n := if current.nodes.isEmpty then n else (n.followRow column 0).2
        ({ stoppedAt := some column }, n)

/-- Follows a bookmark from column 0 on. -/
def openBookmark (n : Navigation σ) (bookmark : Bookmark) : ReplayOutcome × Navigation σ :=
  n.follow 0 bookmark

end Navigation

end CallGraph
