import CallGraph.Frontier.Navigation
import CallGraph.Proofs.Signals
import Mathlib.Logic.Relation

/-!
# Sessions

A `Session` is a navigation at any moment between the uninterrupted sections of those who use it: callers
that select rows and change roots, the worker of the expansion stream, and the worker that shows source text.
An expansion that was chosen is in its caller's hand, waits in the stream, or is under way, be it on the
worker or on the caller's own thread.  Two records that no section reads are kept along: the selections that
stand, and what each expansion found.
-/

namespace CallGraph

/-- What a caller does to the columns in one section. -/
inductive Navigation.Command where
  | setRoots (nodes : List Node)
  | addRoots (nodes : List Node)
  | removeRoots (nodes : List Node)
  | select (column row : Nat)

/-- A navigation in use. -/
structure Session (σ : Type) where
  navigation : Navigation σ
  /-- The expansions that were chosen and are neither submitted nor begun. -/
  inHand : List (Token × Expansion) := []
  /-- The expansions that run on callers' threads. -/
  begun : List (Token × Expansion) := []
  /-- The latest selections, column by column, that no later command took back. -/
  standing : List Pending := []
  /-- The lists that the expansions computed. -/
  found : List (Token × List Node) := []

namespace Session

variable {σ : Type}

/-- The session of a new navigation over a workspace in which nothing was searched for yet. -/
def ofWorkspace (w : Workspace σ) (cacheSize : Nat) : Session σ :=
  { navigation := ⟨{ w with searches := {} }, .empty cacheSize⟩ }

/-- The searches under way. -/
def searches (s : Session σ) : Searches :=
  s.navigation.workspace.searches

/-- The columns. -/
def columns (s : Session σ) : List Column :=
  s.navigation.frontier.columns

/-- The slots. -/
def slots (s : Session σ) : List Slot :=
  s.navigation.frontier.slots

/-- The expansion stream. -/
def stream (s : Session σ) : TaskStream Expansion :=
  s.navigation.frontier.expansions

/-- All expansions that are not finished. -/
def tasks (s : Session σ) : List (Token × Expansion) :=
  s.inHand ++ s.begun ++ s.stream.waiting ++ s.stream.running.toList

/-- Whether nothing is left to do for the expansions that were chosen. -/
def IsDrained (s : Session σ) : Prop :=
  s.tasks = []

/-- Whether nodes are taken out of column 0 together with the selected one. -/
def losesRoot (s : Session σ) (nodes : List Node) : Bool :=
  ((s.navigation.frontier.column? 0).bind Column.selectedNode?).any (Frontier.isAmong nodes)

/-- A command.  Replacing the roots, or removing the selected one, takes back all selections, and selecting a
row those in its column and right of it.  A selection that fails does nothing. -/
def perform (s : Session σ) : Navigation.Command → Session σ
  | .setRoots nodes => { s with navigation := s.navigation.setRoots nodes, standing := [] }
  | .addRoots nodes => { s with navigation := s.navigation.addRoots nodes }
  | .removeRoots nodes =>
    { s with
      navigation := s.navigation.removeRoots nodes
      standing := if s.losesRoot nodes then [] else s.standing }
  | .select column row =>
    match s.navigation.choose column row with
    | .error _ => s
    | .ok (node, handle, expansion, navigation) =>
      { s with
        navigation
        inHand := (handle, expansion) :: s.inHand
        standing := s.standing.take column ++ [⟨handle, node⟩] }

/-- The reply to a request of a search under way, and the session after it. -/
def reply (s : Session σ) (r : Request) : r.Reply × Session σ :=
  let (reply, workspace) := s.navigation.workspace.perform r
  (reply, { s with navigation := { s.navigation with workspace } })

/-- The session with another stage of the expansion that the worker runs. -/
def resume (s : Session σ) (e : Expansion) : Session σ :=
  { s with
    navigation := { s.navigation with
      frontier := { s.navigation.frontier with
        expansions := s.navigation.frontier.expansions.resume e } } }

/-- What goes on between commands. -/
inductive Work : Session σ → Session σ → Prop where
  /-- A column is put into focus and its selected row shown. -/
  | focus (s : Session σ) (column : Nat) :
      Work s { s with navigation := s.navigation.focus column }
  /-- The configuration is read. -/
  | configure (s : Session σ) :
      Work s { s with navigation := { s.navigation with workspace := s.navigation.workspace.getConfig.2 } }
  /-- The highlight worker makes a step. -/
  | render (s : Session σ) :
      Work s { s with navigation := s.navigation.stepRender }
  /-- An expansion is handed to the stream. -/
  | submit (s : Session σ) (before after : List (Token × Expansion)) (handle : Token) (e : Expansion)
      (inHand : s.inHand = before ++ (handle, e) :: after) :
      Work s
        { s with
          inHand := before ++ after
          navigation := { s.navigation with
            frontier := { s.navigation.frontier with expansions := s.stream.submit handle e } } }
  /-- The worker takes up the next expansion, or skips it. -/
  | start (s : Session σ) (running : s.stream.running = none) :
      Work s { s with navigation := s.navigation.stepExpansion }
  /-- The search that the worker runs makes a request. -/
  | request (s : Session σ) (handle : Token) (column : Nat) (r : Request)
      (next : r.Reply → Search (List Node))
      (running : s.stream.running = some (handle, ⟨column, .searching (.wait r next)⟩)) :
      Work s ((s.reply r).2.resume ⟨column, .searching (next (s.reply r).1)⟩)
  /-- The worker publishes what its search found, or throws it away. -/
  | publish (s : Session σ) (handle : Token) (column : Nat) (nodes : List Node)
      (running : s.stream.running = some (handle, ⟨column, .searching (.done nodes)⟩)) :
      Work s { s with navigation := s.navigation.stepExpansion, found := (handle, nodes) :: s.found }
  /-- The worker ends an expansion. -/
  | finish (s : Session σ) (handle : Token) (column : Nat)
      (running : s.stream.running = some (handle, ⟨column, .settled⟩)) :
      Work s { s with navigation := s.navigation.stepExpansion }
  /-- A caller takes up an expansion on its own thread. -/
  | begin (s : Session σ) (before after : List (Token × Expansion)) (handle : Token) (e : Expansion)
      (inHand : s.inHand = before ++ (handle, e) :: after)
      (cancelled : s.searches.isCancelled handle = false) :
      Work s { s with inHand := before ++ after, begun := (handle, e) :: s.begun }
  /-- A caller skips an expansion that was cancelled. -/
  | skip (s : Session σ) (before after : List (Token × Expansion)) (handle : Token) (e : Expansion)
      (inHand : s.inHand = before ++ (handle, e) :: after)
      (cancelled : s.searches.isCancelled handle = true) :
      Work s { s with inHand := before ++ after, navigation := s.navigation.finish handle }
  /-- A search on a caller's thread makes a request. -/
  | callerRequest (s : Session σ) (before after : List (Token × Expansion)) (handle : Token)
      (column : Nat) (r : Request) (next : r.Reply → Search (List Node))
      (begun : s.begun = before ++ (handle, ⟨column, .searching (.wait r next)⟩) :: after) :
      Work s
        { (s.reply r).2 with
          begun := before ++ (handle, ⟨column, .searching (next (s.reply r).1)⟩) :: after }
  /-- A caller publishes what its search found, or throws it away. -/
  | callerPublish (s : Session σ) (before after : List (Token × Expansion)) (handle : Token)
      (column : Nat) (nodes : List Node)
      (begun : s.begun = before ++ (handle, ⟨column, .searching (.done nodes)⟩) :: after) :
      Work s
        { s with
          begun := before ++ (handle, ⟨column, .settled⟩) :: after
          navigation := s.navigation.publish handle column nodes
          found := (handle, nodes) :: s.found }
  /-- A caller ends an expansion. -/
  | callerFinish (s : Session σ) (before after : List (Token × Expansion)) (handle : Token)
      (column : Nat) (begun : s.begun = before ++ (handle, ⟨column, .settled⟩) :: after) :
      Work s { s with begun := before ++ after, navigation := s.navigation.finish handle }

/-- A step of a session: a command, work, or a change of the workspace by others, who do not reach the
handles of its tasks. -/
inductive Step : Session σ → Session σ → Prop where
  | command (s : Session σ) (command : Navigation.Command) :
      Step s (s.perform command)
  | work {s s' : Session σ} (work : Work s s') :
      Step s s'
  | elsewhere (s : Session σ) (workspace : Workspace σ)
      (provider : workspace.provider = s.navigation.workspace.provider)
      (spares : s.searches.Spares workspace.searches) :
      Step s { s with navigation := { s.navigation with workspace } }

/-- Whether a session can come about from a new navigation over a workspace. -/
def Reachable (w : Workspace σ) (cacheSize : Nat) : Session σ → Prop :=
  Relation.ReflTransGen Step (ofWorkspace w cacheSize)

/-- The columns are those of the slots. -/
theorem getElem?_columns {s : Session σ} {i : Nat} {column : Column} :
  s.columns[i]? = some column ↔ ∃ slot, s.slots[i]? = some slot ∧ slot.column = column
  := by
  rw [columns, Frontier.columns, List.getElem?_map]
  apply Option.map_eq_some_iff

/-- There are as many columns as slots. -/
theorem length_columns (s : Session σ) :
  s.columns.length = s.slots.length
  :=
  List.length_map _

end Session

end CallGraph
