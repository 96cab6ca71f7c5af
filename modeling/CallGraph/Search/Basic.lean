import CallGraph.Config
import CallGraph.Log
import CallGraph.Provider.Basic

/-!
# Searches

A `Search` is a computation that asks its surroundings for what it needs: answers of the provider, the
state of a token, the files to search, the configuration.  Each `Request` has a type of replies.  A search
is either done or waits for the reply to one request, so that whoever runs it may do so step by step and let
other things happen in between.
-/

namespace CallGraph

/-- What a search asks its surroundings for. -/
inductive Request where
  /-- To take a question to the provider. -/
  | pose (q : Question)
  /-- The answer to the question that was posed last; the token is that of the search it belongs to. -/
  | await (q : Question) (token : Option Token)
  /-- Whether a token was cancelled. -/
  | isCancelled (token : Token)
  /-- A token of a caller's own. -/
  | freshToken
  /-- To be counted among the searches under way, for a caller's token. -/
  | enter (caller : Token)
  /-- To be counted no longer. -/
  | leave (search : Token)
  /-- The files that are searched for usages, in order. -/
  | searchedFiles
  /-- To search a file for usages from now on. -/
  | widen (file : Path)
  /-- The search path of the project. -/
  | searchPath
  | config
  | files
  | log (line : LogLine)
  /-- The number of a new node. -/
  | freshNode

/-- The type of the replies to a request. -/
abbrev Request.Reply : Request → Type
  | pose _ => Except ProviderError Unit
  | await q _ => Except ProviderError q.Answer
  | isCancelled _ => Bool
  | freshToken => Token
  | enter _ => Token
  | leave _ => Unit
  | searchedFiles => List Path
  | widen _ => Unit
  | searchPath => List Path
  | config => ConfigValues
  | files => FileTree
  | log _ => Unit
  | freshNode => Nat

/-- A computation that makes requests. -/
inductive Search (α : Type) where
  | done (value : α)
  | wait (r : Request) (next : r.Reply → Search α)

namespace Search

/-- A search followed by another one. -/
def andThen {α β : Type} : Search α → (α → Search β) → Search β
  | done a, f => f a
  | wait r next, f => wait r fun reply => (next reply).andThen f

instance : Monad Search where
  pure := done
  bind := andThen

/-- A single request. -/
def request (r : Request) : Search r.Reply :=
  wait r done

/-- Poses a question and awaits the answer. -/
def ask (q : Question) (token : Option Token) : Search (Except ProviderError q.Answer) := do
  match ← request (.pose q) with
  | .error e => pure (.error e)
  | .ok () => request (.await q token)

/-- Writes to the log. -/
def log (line : LogLine) : Search Unit :=
  request (.log line)

/-- Whether a token was cancelled. -/
def isCancelled (token : Token) : Search Bool :=
  request (.isCancelled token)

/-- Reports an error that goes no further.  A cancelled search is no error; the configuration says whether
others are told with all their parts. -/
def report (e : ProviderError) (context : String) : Search Unit := do
  if e.isCancelled then log (.info s!"{e.message}; {context}")
  else if (← request .config).verboseErrors then log (.error s!"{e.parts.flat}; {context}")
  else log (.error s!"{e.message}; {context}")

end Search

/-! ### Searches that may fail -/

/-- A search that may end with an error of the provider. -/
abbrev Finding (α : Type) : Type :=
  ExceptT ProviderError Search α

namespace Finding

/-- A request of a search that may fail. -/
def request (r : Request) : Finding r.Reply :=
  ExceptT.lift (Search.request r)

/-- Ends the search here if it was cancelled. -/
def checkpoint (token : Token) : Finding Unit := do
  if ← request (.isCancelled token) then throw .cancelled

/-- The result of one step, or a default with a report if the step failed.  A cancelled step ends the
search. -/
def contained {α : Type} (result : Except ProviderError α) (default : α) (context : String) :
    Finding α :=
  match result with
  | .ok a => pure a
  | .error .cancelled => throw .cancelled
  | .error e => do
    ExceptT.lift (Search.report e context)
    pure default

/-- Asks a question of which a failure goes no further. -/
def askContained (q : Question) (token : Token) (default : q.Answer) (context : String) :
    Finding q.Answer := do
  let result ← ExceptT.lift (Search.ask q (some token))
  contained result default context

/-- Asks a question. -/
def ask (q : Question) (token : Option Token) : Finding q.Answer :=
  ExceptT.mk (Search.ask q token)

end Finding

end CallGraph
