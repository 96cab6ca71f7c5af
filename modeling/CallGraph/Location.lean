import CallGraph.Json.Codec
import CallGraph.Path

/-!
# Places in source files

A `Location` is a line, counted from one, and a column, counted in octets from zero; either may be
unknown.  A `CallPosition` is a stretch between two locations of a file, whose path may be unknown too.
-/

namespace CallGraph

instance : Codec Path where
  encode p := .text p.spelling
  decode
    | .text value => .ok ⟨value⟩
    | other => wrongType other "path string"

/-- A place in a file. -/
structure Location where
  line : Option UInt32
  column : Option UInt32
  deriving DecidableEq, Repr

namespace Location

/-- The place nothing is known of. -/
def unknown : Location := ⟨none, none⟩

/-- The place at a line and column. -/
def known (line column : UInt32) : Location := ⟨some line, some column⟩

/-- Whether both line and column are known. -/
def isKnown (l : Location) : Bool :=
  l.line.isSome && l.column.isSome

/-- An unknown number comes before every known one. -/
def numberBefore : Option UInt32 → Option UInt32 → Bool
  | none, some _ => true
  | some a, some b => a < b
  | _, none => false

/-- Whether a place comes before another one: by line, then by column. -/
def before (a b : Location) : Bool :=
  numberBefore a.line b.line || (a.line == b.line && numberBefore a.column b.column)

/-- Whether a place does not come after another one. -/
def notAfter (a b : Location) : Bool :=
  !b.before a

/-- The place in writing. -/
def text (l : Location) : String :=
  match l.line, l.column with
  | some line, some column => s!"{line}:{column}"
  | some line, none => toString line
  | none, _ => "?"

instance : Codec Location where
  encode l := .ofFields [("line", encode l.line), ("column", encode l.column)]
  decode value := do
    let r ← RecordReader.start "Location"
      [("line", check (Option UInt32)), ("column", check (Option UInt32))] false false value
    let line ← r.optional "line"
    let column ← r.optional "column"
    r.finish
    .ok ⟨line, column⟩

end Location

/-- A stretch of a file. -/
structure CallPosition where
  path : Option Path
  start : Location
  stop : Location
  deriving BEq

namespace CallPosition

/-- The stretch nothing is known of. -/
def unknown : CallPosition := ⟨none, .unknown, .unknown⟩

/-- Whether neither the file nor either end is known. -/
def isUnknown (p : CallPosition) : Bool :=
  p.path.isNone && !p.start.isKnown && !p.stop.isKnown

/-- File and start in writing. -/
def text (p : CallPosition) : String :=
  match p.path with
  | some path => s!"{path}:{p.start.text}"
  | none => s!"<unknown>:{p.start.text}"

instance : Codec CallPosition where
  encode p := .ofFields [("path", encode p.path), ("start", encode p.start), ("end", encode p.stop)]
  decode value := do
    let r ← RecordReader.start "CallPosition"
      [("path", check (Option Path)), ("start", check Location), ("end", check Location)] false false value
    let path ← r.optional "path"
    let start ← r.required "start"
    let stop ← r.required "end"
    r.finish
    .ok ⟨path, start, stop⟩

end CallPosition

end CallGraph
