import CallGraph.Definition

/-!
# Questions about source code

A `Question` is what can be asked of a provider, and `Question.Answer` is the type of its answers.
-/

namespace CallGraph

/-- What a search for usages starts from. -/
inductive Anchor where
  /-- The symbol of a definition. -/
  | definition (d : Definition)
  /-- Whatever the reference at a place stands for. -/
  | callSite (position : CallPosition) (name : String)
  /-- What an import of a name would bring in. -/
  | importProbe (name : String)

/-- A question about source code. -/
inductive Question where
  /-- The definition of a dotted name. -/
  | resolve (name : String) (searchPath : List Path)
  /-- The definition of a script as a module. -/
  | script (path : Path) (searchPath : List Path)
  /-- The calls, decorators and nested definitions directly inside a scope. -/
  | callSites (scope : Definition)
  /-- The definitions a call site may stand for. -/
  | targets (site : CallSite)
  /-- The names directly inside a scope. -/
  | scopeNames (scope : Definition)
  /-- The occurrences of a symbol in some files. -/
  | usages (anchor : Anchor) (files : List Path)
  /-- The nearest scope around an occurrence. -/
  | enclosing (usage : Usage)

/-- The answers to a question. -/
abbrev Question.Answer : Question → Type
  | resolve _ _ => Option Definition
  | script _ _ => Definition
  | callSites _ => List CallSite
  | targets _ => List Definition
  | scopeNames _ => List ScopeName
  | usages _ _ => List Usage
  | enclosing _ => Definition

/-- The name of what a search for usages starts from. -/
def Anchor.name : Anchor → String
  | definition d => d.name
  | callSite _ name => name
  | importProbe name => name

/-- What a question is about, in a word. -/
def Question.key : Question → String
  | resolve name _ => s!"resolve:{name}"
  | script path _ => s!"script:{path}"
  | callSites scope => s!"call_sites:{scope.name}"
  | targets site => s!"goto:{site.name}"
  | scopeNames scope => s!"scope_names:{scope.name}"
  | usages anchor _ => s!"usages:{anchor.name}"
  | enclosing usage => s!"enclosing:{usage.name}"

end CallGraph
