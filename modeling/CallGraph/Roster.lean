import CallGraph.Tasks

/-!
# Task rosters

A `Roster` is a task stream whose handles have names.  Each task leaves an entry in a journal: the name of
its handle, and whether that handle was cancelled when the task ran.  A task can be held back: once started
it waits until the roster lets held tasks go.
-/

namespace CallGraph

/-- What a task on a roster does. -/
structure RosterTask where
  name : String
  /-- Whether the task waits for the release of all held tasks. -/
  isHeld : Bool

/-- A task stream with named handles and a journal. -/
structure Roster where
  stream : TaskStream RosterTask
  /-- Whether submitted tasks wait for the worker of the stream. -/
  multithreading : Bool
  signals : Signals := {}
  handles : List (String × Token) := []
  isReleased : Bool := false
  /-- The tasks that ran, each with whether its handle was cancelled. -/
  journal : List (String × Bool) := []

namespace Roster

/-- The handle of a name, made when it is first asked for. -/
def handle (r : Roster) (name : String) : Token × Roster :=
  match r.handles.lookup name with
  | some t => (t, r)
  | none =>
    let (t, signals) := r.signals.fresh
    (t, { r with signals, handles := (name, t) :: r.handles })

/-- Whether the handle of a name has been cancelled. -/
def isCancelled (r : Roster) (name : String) : Bool :=
  let (t, r) := r.handle name
  r.signals.isCancelled t

/-- Whether the task of a name has run or was skipped. -/
def isFinished (r : Roster) (name : String) : Bool :=
  let (t, r) := r.handle name
  r.signals.isFinished t

/-- Cancels the handle of a name. -/
def cancel (r : Roster) (name : String) : Roster :=
  let (t, r) := r.handle name
  { r with signals := r.signals.cancel t }

/-- Marks the handle of a name as finished. -/
def finish (r : Roster) (name : String) : Roster :=
  let (t, r) := r.handle name
  { r with signals := r.signals.finish t }

/-- Enters a task in the journal. -/
def enter (r : Roster) (name : String) : Roster :=
  { r with journal := r.journal ++ [(name, r.isCancelled name)] }

/-- Runs a task on the caller, or skips it if its handle was cancelled. -/
def runInline (r : Roster) (name : String) : Roster :=
  if r.isCancelled name then r.finish name else (r.enter name).finish name

/-- One step of the worker: it takes up the next task, or ends the one that runs unless that is held. -/
def step (r : Roster) : Roster :=
  match r.stream.running with
  | none =>
    let (stream, signals) := r.stream.start r.signals
    { r with stream, signals }
  | some (_, task) =>
    if task.isHeld && !r.isReleased then r
    else
      let r := r.enter task.name
      let (stream, signals) := r.stream.finish r.signals
      { r with stream, signals }

/-- Lets the worker go on until it has nothing to do or is held. -/
def work (r : Roster) : Roster :=
  (2 * r.stream.waiting.length + 1).repeat step r

/-- Submits a task. -/
def submit (r : Roster) (name : String) (isHeld : Bool) : Roster :=
  if r.multithreading then
    let (t, r) := r.handle name
    work { r with stream := r.stream.submit t { name, isHeld } }
  else r.runInline name

/-- Lets all held tasks go. -/
def release (r : Roster) : Roster :=
  work { r with isReleased := true }

end Roster

end CallGraph
