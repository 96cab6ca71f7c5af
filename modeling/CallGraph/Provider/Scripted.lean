import CallGraph.Provider.Basic

/-!
# A provider that answers from tables

`Scripted` holds the answers to all questions by name, in the order in which they were entered.  It keeps a
record of what it was asked, can be told to fail at some questions, and holds the call sites of a scope back
until the gate of that scope is opened.
-/

namespace CallGraph

/-- The tables of a scripted provider, its record, and its gates. -/
structure Scripted where
  modules : List (String × Definition) := []
  scripts : List (Path × Definition) := []
  callSites : List (String × CallSite) := []
  targets : List (String × List Definition) := []
  scopeNames : List (String × ScopeName) := []
  usages : List (String × Usage) := []
  enclosing : List (Usage × Definition) := []
  /-- The scopes behind a gate, each with whether the gate is open. -/
  gates : List (String × Bool) := []
  /-- The questions that fail. -/
  failing : List String := []
  /-- The questions asked so far. -/
  calls : List String := []

namespace Scripted

/-- The last entry of a key. -/
def last? {κ ν : Type} [BEq κ] (table : List (κ × ν)) (key : κ) : Option ν :=
  table.reverse.lookup key

/-- All entries of a key in order. -/
def all {κ ν : Type} [BEq κ] (table : List (κ × ν)) (key : κ) : List ν :=
  (table.filter (·.1 == key)).map (·.2)

/-! ### Filling the tables -/

/-- Enters a module. -/
def addModule (s : Scripted) (name : String) (d : Definition) : Scripted :=
  { s with modules := s.modules ++ [(name, d)] }

/-- Enters a script. -/
def addScript (s : Scripted) (path : Path) (d : Definition) : Scripted :=
  { s with scripts := s.scripts ++ [(path, d)] }

/-- Enters a call site of a scope and the targets of its name. -/
def addCallSite (s : Scripted) (scope : String) (site : CallSite) (targets : List Definition) : Scripted :=
  { s with
    callSites := s.callSites ++ [(scope, site)]
    targets := s.targets ++ [(site.name, targets)] }

/-- Enters a name of a scope. -/
def addScopeName (s : Scripted) (scope : String) (name : ScopeName) : Scripted :=
  { s with scopeNames := s.scopeNames ++ [(scope, name)] }

/-- Enters a usage of an anchor and the scope around it, if it has one. -/
def addUsage (s : Scripted) (anchor : String) (usage : Usage) (enclosing : Option Definition) : Scripted :=
  { s with
    usages := s.usages ++ [(anchor, usage)]
    enclosing := match enclosing with
      | some d => s.enclosing ++ [(usage, d)]
      | none => s.enclosing }

/-- Puts a scope behind a closed gate. -/
def addGate (s : Scripted) (scope : String) : Scripted :=
  { s with gates := s.gates ++ [(scope, false)] }

/-! ### Failures and gates -/

/-- Makes a question fail from now on. -/
def fail (s : Scripted) (key : String) : Scripted :=
  { s with failing := key :: s.failing }

/-- Lets a question have its answer again. -/
def recover (s : Scripted) (key : String) : Scripted :=
  { s with failing := s.failing.filter (· != key) }

/-- Opens the gate of a scope. -/
def openGate (s : Scripted) (scope : String) : Scripted :=
  { s with gates := s.gates.map fun g => if g.1 == scope then (g.1, true) else g }

/-- Whether the gate of a scope, if it has one, lets searches pass. -/
def isOpen (s : Scripted) (scope : String) : Bool :=
  (last? s.gates scope).getD true

/-! ### Answers -/

/-- The word for the sort of an anchor. -/
def anchorWord : Anchor → String
  | .definition _ => "definition"
  | .callSite _ _ => "call_site"
  | .importProbe _ => "import"

/-- Adds a line to the record. -/
def note (s : Scripted) (line : String) : Scripted :=
  { s with calls := s.calls ++ [line] }

/-- Records a question, which may be one that fails. -/
def record (s : Scripted) (q : Question) : Except ProviderError Unit × Scripted :=
  let line := q.key
  let s := s.note line
  if s.failing.contains line then (.error (.failed s!"scripted failure in {line}"), s) else (.ok (), s)

/-- What the tables say to a question. -/
def tabled (s : Scripted) : (q : Question) → Except ProviderError q.Answer
  | .resolve name _ => .ok (last? s.modules name)
  | .script path _ =>
    match last? s.scripts path with
    | some d => .ok d
    | none => .error (.outside (.stated .notFound s!"{path} not found"))
  | .callSites scope => .ok (all s.callSites scope.name)
  | .targets site => .ok ((last? s.targets site.name).getD [])
  | .scopeNames scope => .ok (all s.scopeNames scope.name)
  | .usages anchor _ => .ok (all s.usages anchor.name)
  | .enclosing usage =>
    match last? s.enclosing usage with
    | some d => .ok d
    | none => .error (.notFound usage.name)

/-- The record after a question that did not fail; a search for usages also records its anchor. -/
def afterwards (s : Scripted) : Question → Scripted
  | .usages anchor _ => s.note s!"anchor:{anchorWord anchor}:{anchor.name}"
  | _ => s

/-- Takes a question.  Only that for call sites is recorded here, before its gate. -/
def pose (q : Question) : StateM (Provider.Desk Scripted) (Except ProviderError Unit) := fun d =>
  match q with
  | .callSites _ =>
    let (r, state) := d.state.record q
    (r, { d with state })
  | _ => (.ok (), d)

/-- Answers a question, which is recorded unless it was so when it was posed. -/
def answer (q : Question) (token : Option Token) :
    StateM (Provider.Desk Scripted) (Except ProviderError q.Answer) := fun d =>
  if d.isCancelled token then (.error .cancelled, d)
  else
    match q with
    | .callSites scope => (d.state.tabled (.callSites scope), d)
    | q =>
      match d.state.record q with
      | (.error e, state) => (.error e, { d with state })
      | (.ok (), state) => (state.tabled q, { d with state := state.afterwards q })

/-- The provider that answers from tables. -/
def provider : Provider Scripted where
  name := "scripted"
  pose := pose
  ready q s :=
    match q with
    | .callSites scope => s.isOpen scope.name
    | _ => true
  answer _ := answer

end Scripted

end CallGraph
