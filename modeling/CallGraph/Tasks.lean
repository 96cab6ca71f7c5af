import CallGraph.Signals

/-!
# Task streams

A `TaskStream` runs tasks one after the other, in the order in which they were submitted.  Each task has a
token as its handle.  A task whose handle was cancelled before its turn is skipped.  Either way its
handle is finished in the end.
-/

namespace CallGraph

/-- The tasks that wait for their turn, the oldest first, and the one that runs. -/
structure TaskStream (τ : Type) where
  name : String
  waiting : List (Token × τ) := []
  running : Option (Token × τ) := none

namespace TaskStream

variable {τ : Type}

/-- Puts a task behind all others. -/
def submit (s : TaskStream τ) (handle : Token) (task : τ) : TaskStream τ :=
  { s with waiting := s.waiting ++ [(handle, task)] }

/-- Whether there is nothing to do. -/
def isIdle (s : TaskStream τ) : Bool :=
  s.waiting.isEmpty && s.running.isNone

/-- Starts or skips the oldest task, if no other one runs. -/
def start (s : TaskStream τ) (signals : Signals) : TaskStream τ × Signals :=
  match s.running, s.waiting with
  | none, (handle, task) :: rest =>
    if signals.isCancelled handle then ({ s with waiting := rest }, signals.finish handle)
    else ({ s with waiting := rest, running := some (handle, task) }, signals)
  | _, _ => (s, signals)

/-- Replaces the task that runs by what is left of it. -/
def resume (s : TaskStream τ) (task : τ) : TaskStream τ :=
  { s with running := s.running.map fun (handle, _) => (handle, task) }

/-- Ends the task that runs. -/
def finish (s : TaskStream τ) (signals : Signals) : TaskStream τ × Signals :=
  match s.running with
  | some (handle, _) => ({ s with running := none }, signals.finish handle)
  | none => (s, signals)

end TaskStream

end CallGraph
