import CallGraph.Provider.Basic

/-!
# One of two providers

`Provider.sum` answers with the one or the other of two providers, whichever its state belongs to.
-/

namespace CallGraph.Provider

variable {σ τ : Type}

/-- Work of one provider as work of the sum. -/
def Desk.within {α ρ : Type} (work : StateM (Desk ρ) α) (inject : ρ → σ ⊕ τ) (state : ρ)
    (searches : Searches) : α × Desk (σ ⊕ τ) :=
  let (a, d) := work ⟨state, searches⟩
  (a, ⟨inject d.state, d.searches⟩)

/-- One of two providers, by the state. -/
def sum (name : String) (p : Provider σ) (q : Provider τ) : Provider (σ ⊕ τ) where
  name := name
  pose question := fun d =>
    match d.state with
    | .inl x => Desk.within (p.pose question) .inl x d.searches
    | .inr y => Desk.within (q.pose question) .inr y d.searches
  ready question
    | .inl x => p.ready question x
    | .inr y => q.ready question y
  answer files question token := fun d =>
    match d.state with
    | .inl x => Desk.within (p.answer files question token) .inl x d.searches
    | .inr y => Desk.within (q.answer files question token) .inr y d.searches

end CallGraph.Provider
