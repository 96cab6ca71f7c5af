import CallGraph.Proofs.Search.Conduct
import CallGraph.Proofs.Search.Neighbours
import CallGraph.Proofs.Search.Roots

/-!
# The parts of an expansion

When nothing is cancelled, a vertex is expanded into the leaf that shows its own definition, what the search for
its children gives, and what the search for its parents gives after that one, in this order.  The rows are numbered
in a row.
-/

namespace CallGraph

variable {σ α : Type}

/-- A provider that cancels no search. -/
structure Provider.LeavesSearches (p : Provider σ) : Prop where
  pose : ∀ q d, (p.pose q d).2.searches = d.searches
  answer : ∀ files q token d, (p.answer files q token d).2.searches = d.searches

/-- Analyzed nodes with numbers in a row. -/
def Node.numbered : Nat → List Vertex → List Node
  | _, [] => []
  | number, v :: vs => .analyzed number v :: numbered (number + 1) vs

/-- What is found by a search that may have ended with an error. -/
def Search.found : Except ProviderError (List Vertex) → List Vertex
  | .ok vs => vs
  | .error _ => []

namespace Workspace

variable {w : Workspace σ}

/-! ### What requests leave alone -/

/-- Requests leave the record of cancelled tokens alone if the provider does. -/
theorem cancelled_perform (hp : w.provider.LeavesSearches) (r : Request) :
  (w.perform r).2.searches.signals.cancelled = w.searches.signals.cancelled
  := by
  cases r with
  | pose q => exact congrArg (·.signals.cancelled) (hp.pose q ⟨w.analysis, w.searches⟩)
  | await q token => exact congrArg (·.signals.cancelled) (hp.answer w.files q token ⟨w.analysis, w.searches⟩)
  | _ => rfl

theorem isCancelled_perform (hp : w.provider.LeavesSearches) (r : Request) (t : Token) :
  (w.perform r).2.searches.isCancelled t = w.searches.isCancelled t
  :=
  Signals.isCancelled_congr (cancelled_perform hp r) t

theorem run_wait (w : Workspace σ) (r : Request) (next : r.Reply → Search α) :
  w.run (.wait r next) = (w.perform r).2.run (next (w.perform r).1)
  :=
  rfl

theorem provider_run (s : Search α) (w : Workspace σ) :
  (w.run s).2.provider = w.provider
  := by
  induction s generalizing w with
  | done a => rfl
  | wait r next ih => apply (ih _ _).trans (w.perform_provider r)

/-- Nor does a search cancel anything. -/
theorem isCancelled_run (hp : w.provider.LeavesSearches) (s : Search α) (t : Token) :
  (w.run s).2.searches.isCancelled t = w.searches.isCancelled t
  := by
  induction s generalizing w with
  | done a => rfl
  | wait r next ih =>
    rw [run_wait, ← isCancelled_perform hp r t]
    apply ih
    rwa [perform_provider]

/-- Searches that heed a conduct make no nodes. -/
theorem nextNode_run {c : Conduct} {stop : α → Prop} {s : Search α} (hs : s.Heeds c stop) (w : Workspace σ) :
  (w.run s).2.nextNode = w.nextNode
  := by
  induction s generalizing w with
  | done a => rfl
  | wait r next ih =>
    apply (ih _ (hs.2 _) _).trans
    cases r with
    | freshToken | enter _ | leave _ | freshNode => cases hs.1
    | _ => rfl

/-! ### The rows of vertices -/

/-- Vertices become rows in order. -/
theorem run_nodes_eq_numbered (vs : List Vertex) (w : Workspace σ) :
  (w.run (Search.nodes vs)).1 = Node.numbered w.nextNode vs
  := by
  induction vs generalizing w with
  | nil => rfl
  | cons v vs ih =>
    have hfirst : w.run (Search.node v) = (.analyzed w.nextNode v, { w with nextNode := w.nextNode + 1 }) := rfl
    rw [Search.nodes, run_bind, hfirst, run_bind, ih]
    rfl

end Workspace

/-! ### Searches for neighbours -/

namespace Search

/-- What follows the search proper in a search for neighbours. -/
def closing (search : Token) (context : String) (result : Except ProviderError (List Vertex)) :
    Search (List Vertex) := do
  let found ← match result with
    | .ok vs => pure vs
    | .error e => do
      report e context
      pure []
  request (.leave search)
  pure found

theorem begun_eq (search : Token) (context : String) (find : Finding (List Vertex)) :
  begun search context find = find.run >>= closing search context
  :=
  rfl

end Search

namespace Workspace

/-- Whatever was found is given back. -/
theorem run_closing (search : Token) (context : String) (result : Except ProviderError (List Vertex))
    (w : Workspace σ) :
  (w.run (Search.closing search context result)).1 = Search.found result ∧
    (w.run (Search.closing search context result)).2.nextNode = w.nextNode
  := by
  cases result with
  | ok vs => exact ⟨rfl, rfl⟩
  | error e =>
    have hclosing : Search.closing search context (.error e) =
        Search.report e context >>= fun _ => Search.request (.leave search) >>= fun _ => pure [] := rfl
    rw [hclosing, run_bind]
    exact ⟨rfl, nextNode_run (Search.heeds_report (c := ⟨fun _ => False, fun _ => False, False⟩) e context) w⟩

variable {c : Token → Conduct} {find : Token → Finding (List Vertex)}

theorem run_neighbours (caller : Token) (context : String) (find : Token → Finding (List Vertex)) (w : Workspace σ) :
  (w.run (Search.neighbours caller context find)).1 =
    Search.found ((w.perform (.enter caller)).2.run (find (w.perform (.enter caller)).1).run).1
  := by
  have hneighbours : w.run (Search.neighbours caller context find) =
      (w.perform (.enter caller)).2.run (Search.begun (w.perform (.enter caller)).1 context
        (find (w.perform (.enter caller)).1)) := rfl
  rw [hneighbours, Search.begun_eq, run_bind]
  exact (run_closing _ _ _ _).1

theorem nextNode_neighbours (hfind : ∀ t, (find t).Heeds (c t)) (caller : Token) (context : String)
    (w : Workspace σ) :
  (w.run (Search.neighbours caller context find)).2.nextNode = w.nextNode
  := by
  have hneighbours : w.run (Search.neighbours caller context find) =
      (w.perform (.enter caller)).2.run (Search.begun (w.perform (.enter caller)).1 context
        (find (w.perform (.enter caller)).1)) := rfl
  rw [hneighbours, Search.begun_eq, run_bind, (run_closing _ _ _ _).2]
  exact nextNode_run (hfind _) _

/-! ### Expansions -/

variable {w : Workspace σ} {caller : Token}

/-- A look at a caller that was not cancelled. -/
theorem run_isCancelled_bind (hlive : w.searches.isCancelled caller = false) (f : Bool → Search α) :
  w.run (Search.isCancelled caller >>= f) = w.run (f false)
  := by
  have hperform : w.perform (.isCancelled caller) = (false, w) := congrArg (·, w) hlive
  have hrun : w.run (Search.isCancelled caller >>= f) =
      (w.perform (.isCancelled caller)).2.run (f (w.perform (.isCancelled caller)).1) := rfl
  rw [hrun, hperform]

end Workspace

/-- What a vertex other than the leaf of one is expanded into when nothing is cancelled. -/
theorem Vertex.run_next_undisturbed {w : Workspace σ} {caller : Token} (hp : w.provider.LeavesSearches)
    (hlive : w.searches.isCancelled caller = false) {v : Vertex} (hrole : v.element.role ≠ .signature) :
  (w.run (v.next caller)).1 = v.signature?.toList ++ (w.run (v.children caller)).1 ++
      ((w.run (v.children caller)).2.run (v.parents caller)).1 ∧
    (w.run (v.next caller)).2.nextNode = w.nextNode
  := by
  set u := (w.run (v.children caller)).2 with hu
  set u' := (u.run (v.parents caller)).2 with hu'
  have hlive' : u.searches.isCancelled caller = false := (Workspace.isCancelled_run hp _ _).trans hlive
  have hpu : u.provider.LeavesSearches := by
    rw [hu, Workspace.provider_run]
    exact hp
  have hlive'' : u'.searches.isCancelled caller = false := (Workspace.isCancelled_run hpu _ _).trans hlive'
  have hrun : w.run (v.next caller) =
      (v.signature?.toList ++ (w.run (v.children caller)).1 ++ (u.run (v.parents caller)).1, u') := by
    rw [next, if_neg hrole, Workspace.run_isCancelled_bind hlive, if_neg Bool.false_ne_true, Workspace.run_bind, ← hu,
      Workspace.run_isCancelled_bind hlive', if_neg Bool.false_ne_true, Workspace.run_bind, ← hu',
      Workspace.run_isCancelled_bind hlive'', if_neg Bool.false_ne_true]
    rfl
  rw [hrun]
  refine ⟨rfl, ?_⟩
  rw [hu', parents, Workspace.nextNode_neighbours (Finding.heeds_parents v), hu, children,
    Workspace.nextNode_neighbours (Finding.heeds_children v)]

end CallGraph
