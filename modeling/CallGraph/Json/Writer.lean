import CallGraph.Json.Value
import CallGraph.Text.Decimal
import CallGraph.Text.Quoted

/-!
# JSON in writing

`Json.compact` writes a value on one line without blanks.  `Json.pretty` writes one array item or object
field to a line, indented by two spaces for each level; an empty array or object stays `[]` or `{}`.
Texts keep every character except quotes, backslashes and controls.
-/

namespace CallGraph.Json

/-- The written form of a character inside a text. -/
def escapeChar (c : Char) : List Char :=
  if c == '"' then ['\\', '"']
  else if c == '\\' then ['\\', '\\']
  else if c == '\n' then ['\\', 'n']
  else if c == '\r' then ['\\', 'r']
  else if c == '\t' then ['\\', 't']
  else if c.toNat == 8 then ['\\', 'b']
  else if c.toNat == 12 then ['\\', 'f']
  else if c.toNat < 32 then
    ['\\', 'u', '0', '0', Quoted.hexDigit (c.toNat / 16), Quoted.hexDigit (c.toNat % 16)]
  else [c]

/-- The written form of a text, the quotes included. -/
def writeText (s : String) : List Char :=
  '"' :: s.toList.flatMap escapeChar ++ ['"']

/-- The written form of a number. -/
def Number.text : Number → String
  | .integer value => toString value
  | .real bits => Decimal.text bits

/-- What separates the parts of an array or object: nothing, or a new line and an indentation. -/
structure Spacing where
  /-- What stands before the part at a level. -/
  before : Nat → List Char
  /-- What stands between a field's name and its value. -/
  colon : List Char

/-- Everything on one line. -/
def Spacing.tight : Spacing :=
  ⟨fun _ => [], [':']⟩

/-- Two spaces for each level. -/
def Spacing.indented : Spacing :=
  ⟨fun level => '\n' :: List.replicate (2 * level) ' ', [':', ' ']⟩

mutual

/-- A value at a level, before `rest`. -/
def write (s : Spacing) (level : Nat) : Json → List Char → List Char
  | .array (item :: items), rest =>
    '[' :: s.before (level + 1)
      ++ write s (level + 1) item (writeItems s (level + 1) items (s.before level ++ ']' :: rest))
  | .object ((name, value) :: fields), rest =>
    '\x7b' :: s.before (level + 1) ++ writeText name ++ s.colon
      ++ write s (level + 1) value (writeFields s (level + 1) fields (s.before level ++ '\x7d' :: rest))
  | .array [], rest => '[' :: ']' :: rest
  | .object [], rest => '\x7b' :: '\x7d' :: rest
  | .null, rest => ['n', 'u', 'l', 'l'] ++ rest
  | .bool true, rest => ['t', 'r', 'u', 'e'] ++ rest
  | .bool false, rest => ['f', 'a', 'l', 's', 'e'] ++ rest
  | .number value, rest => value.text.toList ++ rest
  | .text value, rest => writeText value ++ rest

/-- The items after the first one, each after a comma, before `rest`. -/
def writeItems (s : Spacing) (level : Nat) : List Json → List Char → List Char
  | [], rest => rest
  | item :: items, rest =>
    ',' :: s.before level ++ write s level item (writeItems s level items rest)

/-- The fields after the first one, each after a comma, before `rest`. -/
def writeFields (s : Spacing) (level : Nat) : List (String × Json) → List Char → List Char
  | [], rest => rest
  | (name, value) :: fields, rest =>
    ',' :: s.before level ++ writeText name ++ s.colon
      ++ write s level value (writeFields s level fields rest)

end

/-- A value on one line. -/
def compact (value : Json) : String :=
  String.ofList (write .tight 0 value [])

/-- A value on indented lines. -/
def pretty (value : Json) : String :=
  String.ofList (write .indented 0 value [])

end CallGraph.Json
