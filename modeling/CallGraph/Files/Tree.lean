import CallGraph.Path
import CallGraph.Text.Utf8

/-!
# File trees

A `FileTree` is the state of a file system: directories, files with their octets and modification times,
and symbolic links.  Looking up a path follows every link on the way, at most forty of them; the last
component is followed as well unless the operation is about the link itself.  Each operation gives a value
or the `FileError` that says why there is none; those that change the tree give the new tree.
-/

namespace CallGraph

/-- Why a file operation fails. -/
inductive FileError where
  | notFound
  | isDirectory
  | notDirectory
  | exists
  | directoryNotEmpty
  | intoItself
  | tooManyLinks
  /-- The path holds a NUL character. -/
  | invalidName
  /-- The octets read as text are not UTF-8. -/
  | notText
  /-- Octets that are no UTF-8, with the place of the first fault. -/
  | undecodable (octets : List UInt8) (fault : Utf8.Fault)
  deriving DecidableEq, Repr

/-- A file error in words. -/
def FileError.message : FileError → String
  | .notFound => "No such file or directory (os error 2)"
  | .isDirectory => "Is a directory (os error 21)"
  | .notDirectory => "Not a directory (os error 20)"
  | .exists => "File exists (os error 17)"
  | .directoryNotEmpty => "Directory not empty (os error 39)"
  | .intoItself => "Invalid argument (os error 22)"
  | .tooManyLinks => "Too many levels of symbolic links (os error 40)"
  | .invalidName => "file name contained an unexpected NUL byte"
  | .notText => "stream did not contain valid UTF-8"
  | .undecodable _ fault => fault.message

/-- What a name in a directory stands for. -/
inductive FileTree.Entry where
  | directory
  | file (octets : ByteArray) (modified : Nat)
  | link (target : String)

/-- A file system.  Keys are the names from the root down; the root itself is always a directory. -/
structure FileTree where
  entries : List (List String × FileTree.Entry) := []
  /-- Where relative paths start. -/
  workingDirectory : List String := []
  /-- The modification time of the next file written. -/
  clock : Nat := 0

namespace FileTree

/-- What stands at a place, links not followed. -/
def entry? (t : FileTree) (place : List String) : Option Entry :=
  match place with
  | [] => some .directory
  | _ => t.entries.lookup place

/-- The tree with an entry at a place. -/
def put (t : FileTree) (place : List String) (entry : Entry) : FileTree :=
  { t with entries := (place, entry) :: t.entries.filter (·.1 != place) }

/-- Whether a place is another one or lies below it. -/
def isWithin (base place : List String) : Bool :=
  base.isPrefixOf place

/-- The tree without a place and all below it. -/
def drop (t : FileTree) (place : List String) : FileTree :=
  { t with entries := t.entries.filter fun e => !isWithin place e.1 }

/-- A step of a look-up: a name to enter, a `..`, or the demand that the place be a directory. -/
inductive Step where
  | enter (name : String)
  | up
  | demandDirectory
  deriving DecidableEq, Repr

/-- The steps a path's spelling asks for.  A slash or `.` after a name demands a directory. -/
def stepsOf (spelling : String) : List Step :=
  let pieces := Path.pieces spelling.toList
  let steps := pieces.filterMap fun piece =>
    if piece == [] || piece == ['.'] then none
    else if piece == ['.', '.'] then some Step.up
    else some (Step.enter (String.ofList piece))
  match pieces.getLast? with
  | some last => if last == [] || last == ['.'] then steps ++ [.demandDirectory] else steps
  | none => steps

/-- Where a look-up ends: at a place that exists, or at a free name in an existing directory. -/
inductive Found where
  | present (place : List String) (entry : Entry)
  | absent (place : List String)

/-- Walks steps from a directory.  `links` is how many links may still be followed and `fuel` bounds the
number of steps; `follow` says whether a link in the last place is followed. -/
def walk (t : FileTree) (follow : Bool) :
    Nat → Nat → List String → List Step → Except FileError Found
  | 0, _, _, _ => .error .tooManyLinks
  | fuel + 1, links, place, steps =>
    match steps with
    | [] => .ok (.present place .directory)
    | .up :: rest => walk t follow fuel links place.dropLast rest
    | .demandDirectory :: rest => walk t follow fuel links place rest
    | .enter name :: rest =>
      let next := place ++ [name]
      match t.entry? next with
      | none => if rest == [] || rest == [.demandDirectory] then .ok (.absent next) else .error .notFound
      | some .directory => walk t follow fuel links next rest
      | some (.file octets modified) =>
        if rest == [] then .ok (.present next (.file octets modified)) else .error .notDirectory
      | some (.link target) =>
        if rest == [] && !follow then .ok (.present next (.link target))
        else
          match links with
          | 0 => .error .tooManyLinks
          | links + 1 =>
            let start := if target.toList.head? == some '/' then [] else place
            walk t follow fuel links start (stepsOf target ++ rest)

/-- Looks a path up. -/
def find (t : FileTree) (p : Path) (follow : Bool) : Except FileError Found :=
  if p.spelling.toList.any (·.toNat == 0) then .error .invalidName
  else if p.spelling.isEmpty then .error .notFound
  else
    let steps := stepsOf p.spelling
    let longest := (t.entries.map fun e => match e.2 with
      | .link target => (stepsOf target).length
      | _ => 0).foldl max 0
    walk t follow (steps.length + 41 * (longest + 1) + 1) 40
      (if p.isAbsolute then [] else t.workingDirectory) steps

/-- The place and entry of a path that exists. -/
def lookup (t : FileTree) (p : Path) : Except FileError (List String × Entry) := do
  match ← t.find p true with
  | .present place entry => .ok (place, entry)
  | .absent _ => .error .notFound

/-- Whether something stands at a path. -/
def «exists» (t : FileTree) (p : Path) : Bool :=
  match t.lookup p with
  | .ok _ => true
  | .error _ => false

/-- Whether a file stands at a path. -/
def isFile (t : FileTree) (p : Path) : Bool :=
  match t.lookup p with
  | .ok (_, .file _ _) => true
  | _ => false

/-- Whether a directory stands at a path. -/
def isDirectory (t : FileTree) (p : Path) : Bool :=
  match t.lookup p with
  | .ok (_, .directory) => true
  | _ => false

/-- The absolute path of a place that holds no link. -/
def canonical (t : FileTree) (p : Path) : Except FileError Path := do
  let (place, _) ← t.lookup p
  .ok (Path.ofNames place)

/-- The octets of a file. -/
def readOctets (t : FileTree) (p : Path) : Except FileError ByteArray := do
  match ← t.lookup p with
  | (_, .file octets _) => .ok octets
  | _ => .error .isDirectory

/-- The text of a file. -/
def readText (t : FileTree) (p : Path) : Except FileError String := do
  let octets ← t.readOctets p
  match Utf8.decode octets with
  | .ok text => .ok text
  | .error _ => .error .notText

/-- Modification time and length of what stands at a path. -/
def stamp (t : FileTree) (p : Path) : Except FileError (Nat × Nat) := do
  match ← t.lookup p with
  | (_, .file octets modified) => .ok (modified, octets.size)
  | _ => .ok (0, 0)

/-- The names in a directory, in the order of their code points. -/
def list (t : FileTree) (p : Path) : Except FileError (List String) := do
  match ← t.lookup p with
  | (place, .directory) =>
    let names := t.entries.filterMap fun e =>
      if e.1.length == place.length + 1 && isWithin place e.1 then e.1.getLast? else none
    .ok (names.mergeSort fun a b => !decide (b < a))
  | _ => .error .notDirectory

/-- The paths below a directory in the order of their code points, those of directories with a slash at the
end.  Links are not followed. -/
def pathsBelow (t : FileTree) (p : Path) : List String :=
  match t.lookup p with
  | .ok (place, .directory) =>
    let paths := t.entries.filterMap fun e =>
      if isWithin place e.1 && e.1 != place then
        let spelling := (Path.ofNames e.1).spelling
        match e.2 with
        | .directory => some (spelling ++ "/")
        | _ => some spelling
      else none
    paths.mergeSort fun a b => !decide (b < a)
  | _ => []

/-! ### Changes -/

/-- Makes one directory. -/
def makeDirectory (t : FileTree) (p : Path) : Except FileError FileTree := do
  match ← t.find p false with
  | .absent place => .ok (t.put place .directory)
  | .present _ _ => .error .exists

/-- The outcome of a change that changes nothing if it fails. -/
def replacedBy (t : FileTree) : Except FileError FileTree → Except FileError Unit × FileTree
  | .ok t' => (.ok (), t')
  | .error e => (.error e, t)

/-- Whether a directory is there after a failed attempt to make it. -/
def demandDirectory (t : FileTree) (p : Path) (e : FileError) : Except FileError Unit × FileTree :=
  (if t.isDirectory p then .ok () else .error e, t)

/-- Makes a directory and those above it that are missing, `fuel` levels of them.  Those that have been made stay if
one below them cannot be. -/
def makeDirectories : Nat → FileTree → Path → Except FileError Unit × FileTree
  | 0, t, _ => (.error .notFound, t)
  | fuel + 1, t, p =>
    if p.spelling.isEmpty then (.ok (), t)
    else
      match t.makeDirectory p with
      | .ok t => (.ok (), t)
      | .error .notFound =>
        match p.parent? with
        | none => (.error .notFound, t)
        | some parent =>
          match makeDirectories fuel t parent with
          | (.error e, t) => (.error e, t)
          | (.ok (), t) =>
            match t.makeDirectory p with
            | .ok t => (.ok (), t)
            | .error e => t.demandDirectory p e
      | .error e => t.demandDirectory p e

/-- Makes a directory and those above it that are missing. -/
def makeAll (t : FileTree) (p : Path) : Except FileError Unit × FileTree :=
  makeDirectories (p.components.length + 1) t p

/-- Where writing to a path puts the file. -/
def target (t : FileTree) (p : Path) : Except FileError (List String) := do
  match ← t.find p true with
  | .present _ .directory => .error .isDirectory
  | .present place _ => .ok place
  | .absent place =>
    if (stepsOf p.spelling).getLast? == some .demandDirectory then .error .isDirectory else .ok place

/-- Writes a file with a given modification time. -/
def writeAt (t : FileTree) (p : Path) (octets : ByteArray) (modified : Nat) :
    Except FileError FileTree := do
  let place ← t.target p
  .ok (t.put place (.file octets modified))

/-- Writes a text at the clock's time. -/
def writeText (t : FileTree) (p : Path) (text : String) : Except FileError FileTree :=
  t.writeAt p text.toUTF8 t.clock

/-- Moves a file or directory to another path; a file there is replaced. -/
def rename (t : FileTree) (source destination : Path) : Except FileError FileTree := do
  match ← t.find source false with
  | .absent _ => .error .notFound
  | .present old entry =>
    let isDir := match entry with
      | .directory => true
      | _ => false
    let move (new : List String) : FileTree :=
      let moved := t.entries.filterMap fun e =>
        if isWithin old e.1 then some (new ++ e.1.drop old.length, e.2) else none
      let t := (t.drop old).drop new
      { t with entries := moved ++ t.entries }
    match ← t.find destination false with
    | .absent new =>
      if isDir && isWithin old new then .error .intoItself else .ok (move new)
    | .present new existing =>
      if new == old then .ok t
      else
        match isDir, existing with
        | true, .directory =>
          if isWithin old new then .error .intoItself
          else if t.entries.any fun e => isWithin new e.1 && e.1 != new then .error .directoryNotEmpty
          else .ok (move new)
        | true, _ => .error .notDirectory
        | false, .directory => .error .isDirectory
        | false, _ => .ok (move new)

/-- Removes what stands at a path with all below it; says whether anything did. -/
def remove (t : FileTree) (p : Path) : Bool × FileTree :=
  match t.find p false with
  | .ok (.present place _) => (true, t.drop place)
  | _ => (false, t)

end FileTree

end CallGraph
