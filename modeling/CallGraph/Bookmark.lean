import CallGraph.Element

/-!
# Bookmarks

A bookmark is a saved walk, one element for each column.  `matchDegree` says how closely a shown element
agrees with a saved one, and `findMatch` picks the row to follow: the first that agrees exactly, else the
first that comes near.
-/

namespace CallGraph

/-- A saved walk. -/
abbrev Bookmark := List Element

/-- How closely an element agrees with a saved one. -/
inductive MatchDegree where
  | exact
  /-- Name, module, kind and role agree. -/
  | sameExceptLocation
  /-- Module, kind, role and call position agree. -/
  | sameExceptName
  deriving DecidableEq, Repr

namespace MatchDegree

/-- What to tell of a degree that is not exact. -/
def note? : MatchDegree → Option String
  | exact => none
  | sameExceptLocation => some "Same except location."
  | sameExceptName => some "Same except name."

end MatchDegree

/-- Whether two elements agree in all but their locations. -/
def sameExceptLocation (a b : Element) : Bool :=
  a.name == b.name && a.module == b.module && a.kind == b.kind && a.role == b.role

/-- Whether two elements agree in module, kind, role and call position. -/
def sameExceptName (a b : Element) : Bool :=
  a.module == b.module && a.kind == b.kind && a.role == b.role && a.callPosition == b.callPosition

/-- How closely a candidate agrees with a target. -/
def matchDegree (candidate target : Element) : Option MatchDegree :=
  if candidate == target then some .exact
  else if sameExceptLocation candidate target then some .sameExceptLocation
  else if sameExceptName candidate target then some .sameExceptName
  else none

/-- Searches candidates from a row on; `near` is the first near miss so far. -/
def findMatchFrom (target : Element) (row : Nat) (near : Option (Nat × MatchDegree)) :
    List Element → Option (Nat × MatchDegree)
  | [] => near
  | candidate :: rest =>
    match matchDegree candidate target with
    | some .exact => some (row, .exact)
    | some degree => findMatchFrom target (row + 1) (near <|> some (row, degree)) rest
    | none => findMatchFrom target (row + 1) near rest

/-- The row to follow for a target: the first exact match, else the first near miss. -/
def findMatch (candidates : List Element) (target : Element) : Option (Nat × MatchDegree) :=
  findMatchFrom target 0 none candidates

end CallGraph
