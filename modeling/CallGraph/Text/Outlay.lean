import CallGraph.Text.Quoted

/-!
# Values laid out by their parts

An `Outlay` is a value as a tree of named parts.  `Outlay.flat` writes it on one line, `Outlay.tall` with
one part to a line, four blanks deeper than what it is part of and with a comma behind it.
-/

namespace CallGraph

/-- A value as a tree of parts. -/
inductive Outlay where
  /-- A value without parts. -/
  | atom (text : String)
  /-- A name with a value in parentheses. -/
  | wrap (name : String) (inner : Outlay)
  /-- Values between square brackets. -/
  | items (values : List Outlay)
  /-- A name with named parts between braces. -/
  | record (name : String) (parts : List (String × Outlay))

namespace Outlay

/-- A quoted text. -/
def text (s : String) : Outlay :=
  .atom (Quoted.text s)

/-- A value that may be missing. -/
def optional (value : Option Outlay) : Outlay :=
  match value with
  | some value => .wrap "Some" value
  | none => .atom "None"

/-- A number. -/
def number (n : Nat) : Outlay :=
  .atom (toString n)

mutual

/-- The value on one line. -/
def flat : Outlay → String
  | .atom text => text
  | .wrap name inner => name ++ "(" ++ inner.flat ++ ")"
  | .items values => "[" ++ ", ".intercalate (flatItems values) ++ "]"
  | .record name parts => name ++ " \x7b " ++ ", ".intercalate (flatParts parts) ++ " \x7d"

/-- Values, each on one line. -/
def flatItems : List Outlay → List String
  | [] => []
  | value :: rest => value.flat :: flatItems rest

/-- Named parts, each on one line. -/
def flatParts : List (String × Outlay) → List String
  | [] => []
  | (name, value) :: rest => (name ++ ": " ++ value.flat) :: flatParts rest

end

/-- The beginning of a line at a depth. -/
def margin (depth : Nat) : String :=
  String.ofList (List.replicate (4 * depth) ' ')

mutual

/-- The value with one part to a line; `depth` is that of the line it begins on. -/
def tall (depth : Nat) : Outlay → String
  | .atom text => text
  | .wrap name inner =>
    name ++ "(\n" ++ margin (depth + 1) ++ tall (depth + 1) inner ++ ",\n" ++ margin depth ++ ")"
  | .items [] => "[]"
  | .items values => "[\n" ++ tallItems (depth + 1) values ++ margin depth ++ "]"
  | .record name parts => name ++ " \x7b\n" ++ tallParts (depth + 1) parts ++ margin depth ++ "\x7d"

/-- The lines of values. -/
def tallItems (depth : Nat) : List Outlay → String
  | [] => ""
  | value :: rest => margin depth ++ tall depth value ++ ",\n" ++ tallItems depth rest

/-- The lines of named parts. -/
def tallParts (depth : Nat) : List (String × Outlay) → String
  | [] => ""
  | (name, value) :: rest =>
    margin depth ++ name ++ ": " ++ tall depth value ++ ",\n" ++ tallParts depth rest

end

end Outlay

end CallGraph
