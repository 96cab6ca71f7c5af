import CallGraph.Provider.Error
import CallGraph.Provider.Question
import CallGraph.Searches

/-!
# Providers

A `Provider` answers questions about source code.  A question is posed first, when it may be refused at
once, and its answer is taken afterwards, when the provider is ready.  Between the two a provider may keep
its caller waiting.  It has a state of its own, and while it works searches may be cancelled.
-/

namespace CallGraph

/-- What a provider acts on: its own state and the searches under way. -/
structure Provider.Desk (σ : Type) where
  state : σ
  searches : Searches

/-- A source of answers, with a state in `σ`. -/
structure Provider (σ : Type) where
  name : String
  /-- Takes a question, or refuses it. -/
  pose : Question → StateM (Provider.Desk σ) (Except ProviderError Unit) := fun _ => pure (.ok ())
  /-- Whether the answer to a question that was posed can be had. -/
  ready : Question → σ → Bool := fun _ _ => true
  /-- The answer to a question that was posed.  A search that was cancelled gets none; the token is that
  of the search, if the question belongs to one. -/
  answer : FileTree → (q : Question) → Option Token →
    StateM (Provider.Desk σ) (Except ProviderError q.Answer)

namespace Provider.Desk

/-- Whether the search of a question was cancelled. -/
def isCancelled {σ : Type} (d : Desk σ) : Option Token → Bool
  | some token => d.searches.isCancelled token
  | none => false

end Provider.Desk

end CallGraph
