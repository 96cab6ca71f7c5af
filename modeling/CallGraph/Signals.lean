/-!
# Cancellation and completion

A `Token` is what a search or task looks at to learn that it is to stop.  A token may be made below
another one: whoever cancels the upper one cancels both, whoever cancels the lower one leaves the upper one
alone.  `Signals` records which tokens were cancelled and, of those that stand for tasks, which are
finished.  Neither record is ever taken back.
-/

namespace CallGraph

/-- What is cancelled to stop a piece of work. -/
inductive Token where
  | root (number : Nat)
  /-- A token that is also cancelled with another one. -/
  | under (upper : Token) (number : Nat)
  deriving DecidableEq, Repr

/-- The tokens that were cancelled, those whose tasks are finished, and the number of the next token. -/
structure Signals where
  cancelled : List Token := []
  finished : List Token := []
  next : Nat := 0

namespace Signals

/-- A new token. -/
def fresh (s : Signals) : Token × Signals :=
  (.root s.next, { s with next := s.next + 1 })

/-- A new token below another one. -/
def freshBelow (s : Signals) (upper : Token) : Token × Signals :=
  (.under upper s.next, { s with next := s.next + 1 })

/-- Cancels a token. -/
def cancel (s : Signals) (t : Token) : Signals :=
  if t ∈ s.cancelled then s else { s with cancelled := t :: s.cancelled }

/-- Whether a token was cancelled, by itself or with one above it. -/
def isCancelled (s : Signals) : Token → Bool
  | .root number => s.cancelled.contains (.root number)
  | .under upper number => s.cancelled.contains (.under upper number) || s.isCancelled upper

/-- Marks the task of a token as finished. -/
def finish (s : Signals) (t : Token) : Signals :=
  if t ∈ s.finished then s else { s with finished := t :: s.finished }

/-- Whether the task of a token is finished. -/
def isFinished (s : Signals) (t : Token) : Bool :=
  s.finished.contains t

end Signals

end CallGraph
