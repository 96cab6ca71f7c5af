import CallGraph.Search.Basic
import CallGraph.SearchScope

/-!
# Workspaces

A `Workspace` is what all searches of a session share: the provider and its state, the files, the
configuration, the files searched for usages, the search path, the searches under way and the log.
`Workspace.perform` replies to the requests of a search, `Workspace.run` runs a search to its end and
`Workspace.advance` runs it until its next answer is held back.
-/

namespace CallGraph

/-- What the searches of a session share. -/
structure Workspace (σ : Type) where
  provider : Provider σ
  analysis : σ
  files : FileTree
  config : UserConfig
  scope : SearchScope := {}
  searchPath : List Path := []
  searches : Searches := {}
  nextNode : Nat := 0
  log : List LogLine := []

namespace Workspace

variable {σ : Type}

/-- The workspace with another line in the log. -/
def note (w : Workspace σ) (line : LogLine) : Workspace σ :=
  { w with log := w.log ++ [line] }

/-- Lets the provider work. -/
def consult {α : Type} (w : Workspace σ) (work : StateM (Provider.Desk σ) α) : α × Workspace σ :=
  let (a, desk) := work ⟨w.analysis, w.searches⟩
  (a, { w with analysis := desk.state, searches := desk.searches })

/-- The configuration in force. -/
def getConfig (w : Workspace σ) : ConfigValues × Workspace σ :=
  let (values, config, lines) := w.config.get w.files
  (values, { w with config, log := w.log ++ lines })

/-- A new token. -/
def freshToken (w : Workspace σ) : Token × Workspace σ :=
  let (token, signals) := w.searches.signals.fresh
  (token, { w with searches := { w.searches with signals } })

/-- Changes the signals. -/
def signal (w : Workspace σ) (f : Signals → Signals) : Workspace σ :=
  { w with searches := { w.searches with signals := f w.searches.signals } }

/-- Cancels every search under way. -/
def cancelSearches (w : Workspace σ) : Workspace σ :=
  { w with searches := w.searches.cancelAll }

/-- Replies to a request. -/
def perform (w : Workspace σ) : (r : Request) → r.Reply × Workspace σ
  | .pose q => w.consult (w.provider.pose q)
  | .await q token => w.consult (w.provider.answer w.files q token)
  | .isCancelled token => (w.searches.isCancelled token, w)
  | .freshToken => w.freshToken
  | .enter caller =>
    let (search, searches) := w.searches.enter caller
    (search, { w with searches })
  | .leave search => ((), { w with searches := w.searches.leave search })
  | .searchedFiles => (w.scope.snapshot, w)
  | .widen file => ((), { w with scope := w.scope.insert file })
  | .searchPath => (w.searchPath, w)
  | .config => w.getConfig
  | .files => (w.files, w)
  | .log line => ((), w.note line)
  | .freshNode => (w.nextNode, { w with nextNode := w.nextNode + 1 })

/-- Whether a request can be replied to now. -/
def isReady (w : Workspace σ) : Request → Bool
  | .await q _ => w.provider.ready q w.analysis
  | _ => true

/-- Runs a search to its end, taking every answer as it is. -/
def run {α : Type} : Search α → Workspace σ → α × Workspace σ
  | .done a, w => (a, w)
  | .wait r next, w =>
    let (reply, w) := w.perform r
    run (next reply) w

/-- Runs a search until it is done or its next answer is held back; gives what is left of it. -/
def advance {α : Type} : Search α → Workspace σ → Search α × Workspace σ
  | .done a, w => (.done a, w)
  | .wait r next, w =>
    if w.isReady r then
      let (reply, w) := w.perform r
      advance (next reply) w
    else (.wait r next, w)

end Workspace

end CallGraph
