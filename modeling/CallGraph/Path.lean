/-!
# Paths

A `Path` keeps the text it was given.  What it denotes is its list of components: the root, a leading
`.`, every `..`, and the names; repeated slashes, inner `.` and trailing slashes leave no component.  Two
paths are equal (`==`) when their components are, and `Path.before` orders paths by their components, so
that a directory comes before everything below it and below everything beside it with a longer name.
-/

namespace CallGraph

/-- A step of a path. -/
inductive Path.Component where
  | root
  /-- A leading `.`. -/
  | here
  /-- A `..`. -/
  | up
  | name (text : String)
  deriving DecidableEq, Repr

/-- A path as it is spelled. -/
structure Path where
  spelling : String
  deriving Repr

namespace Path

/-- The kind of a component in the order of components. -/
def Component.rank : Component → Nat
  | .root => 0
  | .here => 1
  | .up => 2
  | .name _ => 3

/-- Whether a component comes before another one. -/
def Component.before (a b : Component) : Bool :=
  match a, b with
  | .name s, .name t => s < t
  | _, _ => a.rank < b.rank

/-- The component's own spelling. -/
def Component.text : Component → String
  | .root => "/"
  | .here => "."
  | .up => ".."
  | .name text => text

/-- The pieces of a text between slashes. -/
def pieces : List Char → List (List Char)
  | [] => [[]]
  | c :: cs =>
    match pieces cs with
    | [] => [[c]]
    | piece :: rest => if c == '/' then [] :: piece :: rest else (c :: piece) :: rest

/-- The component a piece stands for; empty pieces and `.` stand for none. -/
def componentOf (piece : List Char) : Option Component :=
  if piece == [] || piece == ['.'] then none
  else if piece == ['.', '.'] then some .up
  else some (.name (String.ofList piece))

/-- The components of a text. -/
def componentsOf (cs : List Char) : List Component :=
  match pieces cs with
  | [] => []
  | first :: rest =>
    if first == [] && !rest.isEmpty then .root :: rest.filterMap componentOf
    else if first == ['.'] then .here :: rest.filterMap componentOf
    else (first :: rest).filterMap componentOf

/-- The components of a path. -/
def components (p : Path) : List Component :=
  componentsOf p.spelling.toList

instance : BEq Path := ⟨fun a b => a.components == b.components⟩

instance : Inhabited Path := ⟨⟨""⟩⟩

instance : ToString Path := ⟨Path.spelling⟩

/-- The lexicographic order of component lists. -/
def componentsBefore : List Component → List Component → Bool
  | _, [] => false
  | [], _ :: _ => true
  | a :: as, b :: bs => if a.before b then true else if b.before a then false else componentsBefore as bs

/-- Whether a path comes before another one. -/
def before (a b : Path) : Bool :=
  componentsBefore a.components b.components

/-- Paths in order; equal ones keep their order. -/
def sort (paths : List Path) : List Path :=
  paths.mergeSort fun a b => !b.before a

/-- Whether a path starts at the root. -/
def isAbsolute (p : Path) : Bool :=
  p.spelling.toList.head? == some '/'

/-- A path followed by another one, which stands alone if it is absolute. -/
def join (base more : Path) : Path :=
  if more.isAbsolute then more
  else if base.spelling.isEmpty || base.spelling.toList.getLast? == some '/' then
    ⟨base.spelling ++ more.spelling⟩
  else ⟨base.spelling ++ "/" ++ more.spelling⟩

/-- A path followed by a name. -/
def child (base : Path) (name : String) : Path :=
  base.join ⟨name⟩

/-- The last name of a path that ends in one. -/
def fileName? (p : Path) : Option String :=
  match p.components.getLast? with
  | some (.name text) => some text
  | _ => none

/-- A text without its last characters as long as they satisfy `drop`. -/
def dropTrailing (drop : Char → Bool) (cs : List Char) : List Char :=
  (cs.reverse.dropWhile drop).reverse

/-- Drops trailing slashes and trailing `.` pieces from reversed characters, at most `fuel` steps. -/
def trimReversed : Nat → List Char → List Char
  | 0, cs => cs
  | _, [] => []
  | fuel + 1, '/' :: cs => if cs.isEmpty then ['/'] else trimReversed fuel cs
  | fuel + 1, '.' :: '/' :: cs => trimReversed fuel ('/' :: cs)
  | _, cs => cs

/-- The spelling without slashes and `.` pieces at its end. -/
def trimmed (cs : List Char) : List Char :=
  (trimReversed (2 * cs.length) cs.reverse).reverse

/-- The path without its last component; the root and the empty path have none. -/
def parent? (p : Path) : Option Path :=
  match p.components.getLast? with
  | none => none
  | some .root => none
  | some _ =>
    let body := dropTrailing (· != '/') (trimmed p.spelling.toList)
    some ⟨String.ofList (trimmed body)⟩

/-- A file name cut at its last dot: the stem, and what follows the dot.  A dot in front does not count. -/
def splitName (name : List Char) : List Char × Option (List Char) :=
  if name == ['.', '.'] then (name, none)
  else
    let after := (name.reverse.takeWhile (· != '.')).reverse
    let stem := name.take (name.length - after.length - 1)
    if after.length == name.length || stem.isEmpty then (name, none) else (stem, some after)

/-- The last name without its extension. -/
def fileStem? (p : Path) : Option String :=
  p.fileName?.map fun name => String.ofList (splitName name.toList).1

/-- What follows the last dot of the last name. -/
def extension? (p : Path) : Option String :=
  p.fileName?.bind fun name => (splitName name.toList).2.map String.ofList

/-- The path with another extension on its last name. -/
def withExtension (p : Path) (extension : String) : Path :=
  match p.fileName? with
  | none => p
  | some name =>
    let (stem, after) := splitName name.toList
    let base := trimmed p.spelling.toList
    let cut := match after with
      | none => 0
      | some after => after.length + 1
    let body := base.take (base.length - cut)
    if stem.isEmpty || extension.isEmpty then ⟨String.ofList body⟩
    else ⟨String.ofList body ++ "." ++ extension⟩

/-- The absolute path of a list of names. -/
def ofNames (names : List String) : Path :=
  ⟨"/" ++ "/".intercalate names⟩

/-- The names along a path. -/
def names (p : Path) : List String :=
  p.components.filterMap fun
    | .name text => some text
    | _ => none

end Path

end CallGraph
