/-!
# Lines of a text

A line ends with a line feed, to which a carriage return right before it belongs.  The last line may lack
its end.
-/

namespace CallGraph.Lines

/-- The lines of a text, without their ends. -/
def split : List Char → List (List Char)
  | [] => []
  | '\n' :: rest => [] :: split rest
  | '\r' :: '\n' :: rest => [] :: split rest
  | c :: rest =>
    match split rest with
    | [] => [[c]]
    | line :: lines => (c :: line) :: lines

/-- The line of an index. -/
def get? (text : String) (index : Nat) : Option String :=
  (split text.toList)[index]?.map String.ofList

/-- Every line with its end. -/
def join (lines : List String) : String :=
  String.join (lines.map (· ++ "\n"))

/-- A text moved to the right: each of its lines stands behind some blanks. -/
def indent (width : Nat) (text : String) : String :=
  let margin := List.replicate width ' '
  String.ofList (margin ++ text.toList.flatMap fun c => if c == '\n' then '\n' :: margin else [c])

/-- A text moved to the right end of a field. -/
def padLeft (width : Nat) (text : String) : String :=
  "".pushn ' ' (width - text.length) ++ text

end CallGraph.Lines
