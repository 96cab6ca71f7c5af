import CallGraph.Signals

/-!
# The searches under way

`Searches` lists the searches that are under way, each by a token of its own below that of its caller.
Cancelling all searches cancels the tokens in the list; callers' tokens and later searches are not touched.
-/

namespace CallGraph

/-- The signals and the searches under way, in the order in which they began. -/
structure Searches where
  signals : Signals := {}
  live : List Token := []

namespace Searches

/-- Begins a search for a caller; its token is cancelled with the caller's. -/
def enter (s : Searches) (caller : Token) : Token × Searches :=
  let (search, signals) := s.signals.freshBelow caller
  (search, { signals, live := s.live ++ [search] })

/-- Ends a search. -/
def leave (s : Searches) (search : Token) : Searches :=
  { s with live := s.live.filter (· != search) }

/-- The number of searches under way. -/
def inFlight (s : Searches) : Nat :=
  s.live.length

/-- Cancels every search under way. -/
def cancelAll (s : Searches) : Searches :=
  { s with signals := s.live.foldl Signals.cancel s.signals }

/-- Cancels a token. -/
def cancel (s : Searches) (t : Token) : Searches :=
  { s with signals := s.signals.cancel t }

/-- Whether a token was cancelled. -/
def isCancelled (s : Searches) (t : Token) : Bool :=
  s.signals.isCancelled t

end Searches

end CallGraph
