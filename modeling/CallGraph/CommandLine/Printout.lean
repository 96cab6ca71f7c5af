import CallGraph.Frontier.Basic
import CallGraph.Text.Lines

/-!
# Printed navigation

How columns, a node and highlighted source look in print.  A `SourcePrinter` is a sink that prints the line
in which a marked stretch starts, and carets below the stretch if it ends in that line.
-/

namespace CallGraph

/-- A column in lines: its index, then its rows, the selected one behind a star. -/
def Column.lines (unicode : Bool) (index : Nat) (c : Column) : List String :=
  s!"[{index}]" :: c.nodes.mapIdx fun row node =>
    (if c.selected == some row then "* " else "  ") ++ node.element.label unicode

/-- All columns in lines. -/
def Frontier.lines (unicode : Bool) (f : Frontier) : List String :=
  (f.columns.mapIdx fun index c => c.lines unicode index).flatten

/-- What is known of a node, in lines. -/
def Node.lines (n : Node) : List String :=
  let e := n.element
  let place := match e.path with
    | some path => [s!"defined at: {path}:{e.start.text}"]
    | none => []
  let origin := if e.callPosition.path.isSome then [s!"reached from: {e.callPosition.text}"] else []
  [s!"name: {e.name}", s!"kind: {e.kind}", s!"module: {e.module}"] ++ place ++ origin

/-- A sink that prints, and the text it has. -/
structure SourcePrinter where
  text : Option String := none

namespace SourcePrinter

/-- The line in which a stretch of a text starts, with the stretch marked. -/
def marked (text : String) (span : CallPosition) : List String :=
  match span.start.line with
  | none => []
  | some line =>
    match Lines.get? text (line.toNat - 1) with
    | none => []
    | some source =>
      let gutter (label : String) := Lines.padLeft 5 label ++ " | "
      let shown := gutter (toString line.toNat) ++ source
      match span.start.column, span.stop.column with
      | some start, some stop =>
        if span.stop.line == some line && start < stop then
          [shown, ((gutter "").pushn ' ' start.toNat).pushn '^' (stop.toNat - start.toNat)]
        else [shown]
      | _, _ => [shown]

/-- Takes an event; gives the lines to print. -/
def take (p : SourcePrinter) : SinkEvent → List String × SourcePrinter
  | .reset => ([], {})
  | .render reuse text span =>
    let p : SourcePrinter := if reuse then p else ⟨some text⟩
    match p.text with
    | some text => (marked text span, p)
    | none => ([], p)

/-- The lines that events have printed. -/
def lines (p : SourcePrinter) : List SinkEvent → List String
  | [] => []
  | event :: rest =>
    let (printed, p) := p.take event
    printed ++ lines p rest

end SourcePrinter

end CallGraph
