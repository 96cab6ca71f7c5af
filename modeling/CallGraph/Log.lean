/-!
# Log lines

What the program has to tell besides its answers, in the order in which it happens.
-/

namespace CallGraph

/-- How much a log line matters. -/
inductive Level where
  | info
  | warn
  | error
  deriving DecidableEq, Repr

/-- The level's name. -/
def Level.text : Level → String
  | .info => "INFO"
  | .warn => "WARN"
  | .error => "ERROR"

/-- A line of the log. -/
structure LogLine where
  level : Level
  text : String
  deriving DecidableEq, Repr

/-- A line of information. -/
def LogLine.info (text : String) : LogLine := ⟨.info, text⟩

/-- A warning. -/
def LogLine.warn (text : String) : LogLine := ⟨.warn, text⟩

/-- A line about an error. -/
def LogLine.error (text : String) : LogLine := ⟨.error, text⟩

end CallGraph
