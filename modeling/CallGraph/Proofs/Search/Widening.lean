import CallGraph.Proofs.Search.Conduct

/-!
# By what searches widen the scope

A search `TakesIn` definitions when the only files by which it widens the scope are those of the definitions it was
given last, be it as the scope around a usage or as what a module name stands for.  All searches for the neighbours of
nodes do so.  As nothing stands between an answer and the widening by it, a search that waits for an answer, or that
has not begun, was given nothing yet.
-/

namespace CallGraph

/-- The definitions that an answer gives as scopes around usages and as what module names stand for. -/
def Question.returned : (q : Question) → q.Answer → List Definition
  | enclosing _, d => [d]
  | resolve _ _, d => d.toList
  | script _ _, _ | callSites _, _ | targets _, _ | scopeNames _, _ | usages _ _, _ => []

/-- The definitions that were given last, once a request is replied to. -/
def Request.given (before : List Definition) : (r : Request) → r.Reply → List Definition
  | await q _, .ok a => q.returned a
  | await _ _, .error _ => []
  | pose _, _ | isCancelled _, _ | freshToken, _ | enter _, _ | leave _, _ | searchedFiles, _ | widen _, _
  | searchPath, _ | config, _ | files, _ | log _, _ | freshNode, _ => before

/-- A request that widens the scope by nothing but the file of a given definition. -/
def Request.TakesIn (given : List Definition) : Request → Prop
  | widen file => ∃ d ∈ given, d.path = some file
  | _ => True

/-- A search that widens the scope by nothing but files of definitions it was given last. -/
def Search.TakesIn {α : Type} : Search α → List Definition → Prop
  | done _, _ => True
  | wait r next, given => r.TakesIn given ∧ ∀ reply, (next reply).TakesIn (r.given given reply)

/-- A search that may fail and widens the scope by nothing but files of definitions it was given last. -/
def Finding.TakesIn {α : Type} (s : Finding α) (given : List Definition) : Prop :=
  s.run.TakesIn given

variable {α β : Type} {given given' : List Definition} {c : Conduct}

theorem Request.TakesIn.mono {r : Request} (h : r.TakesIn given) (hgiven : given ⊆ given') :
  r.TakesIn given'
  := by
  cases r with
  | widen file => exact h.imp fun _ => And.imp_left (hgiven ·)
  | _ => trivial

theorem Request.given_mono (r : Request) (reply : r.Reply) (hgiven : given ⊆ given') :
  r.given given reply ⊆ r.given given' reply
  := by
  cases r with
  | await q token =>
    cases reply with
    | ok a => apply List.Subset.refl
    | error e => apply List.Subset.refl
  | _ => exact hgiven

namespace Search

theorem andThen_assoc {γ : Type} (s : Search α) (f : α → Search β) (g : β → Search γ) :
  (s.andThen f).andThen g = s.andThen fun a => (f a).andThen g
  := by
  induction s with
  | done a => rfl
  | wait r next ih => exact congrArg (wait r) (funext ih)

theorem TakesIn.mono {s : Search α} (h : s.TakesIn given) (hgiven : given ⊆ given') :
  s.TakesIn given'
  := by
  induction s generalizing given given' with
  | done a => trivial
  | wait r next ih =>
    constructor
    · apply h.1.mono hgiven
    · intro reply
      apply ih reply (h.2 reply)
      apply r.given_mono reply hgiven

/-- A search that is given nothing takes in no more once it is given something. -/
theorem TakesIn.of_nil {s : Search α} (h : s.TakesIn []) :
  s.TakesIn given
  :=
  h.mono (List.nil_subset given)

/-- One search after the other. -/
theorem TakesIn.bind {s : Search α} {f : α → Search β} (h : s.TakesIn given) (hf : ∀ a, (f a).TakesIn []) :
  (s >>= f).TakesIn given
  := by
  induction s generalizing given with
  | done a => exact (hf a).of_nil
  | wait r next ih => exact ⟨h.1, fun reply => ih reply (h.2 reply)⟩

/-- After a question the definitions of its answer are given. -/
theorem takesIn_ask_bind {q : Question} {token : Option Token} {f : Except ProviderError q.Answer → Search β}
    (herror : ∀ e, (f (.error e)).TakesIn []) (hok : ∀ a, (f (.ok a)).TakesIn (q.returned a)) :
  (ask q token >>= f).TakesIn given
  := by
  refine ⟨trivial, fun posed => ?_⟩
  cases posed with
  | error e => exact (herror e).of_nil
  | ok _ =>
    refine ⟨trivial, fun answer => ?_⟩
    cases answer with
    | error e => exact herror e
    | ok a => exact hok a

/-- A request that widens by nothing. -/
theorem takesIn_request (r : Request) (hr : r.TakesIn given) :
  (request r).TakesIn given
  :=
  ⟨hr, fun _ => trivial⟩

/-- A search whose conduct does not let it widen the scope. -/
theorem Heeds.takesIn {s : Search α} {stop : α → Prop} (h : s.Heeds c stop) (hwidens : ¬ c.widens) :
  s.TakesIn given
  := by
  induction s generalizing given with
  | done a => trivial
  | wait r next ih =>
    refine ⟨?_, fun reply => ih reply (h.2 reply)⟩
    cases r with
    | widen file => exact absurd h.1 hwidens
    | _ => trivial

/-- Whatever does not widen the scope. -/
def narrow : Conduct where
  asks _ := True
  looks _ := True
  widens := False

theorem takesIn_log (line : LogLine) :
  (log line).TakesIn given
  :=
  takesIn_request (.log line) trivial

theorem takesIn_report (e : ProviderError) (context : String) :
  (report e context).TakesIn given
  := by
  apply (heeds_report e context : Heeds narrow _ _).takesIn
  exact id

end Search

namespace Finding

/-- One search after the other. -/
theorem TakesIn.bind {s : Finding α} {f : α → Finding β} (h : s.TakesIn given) (hf : ∀ a, (f a).TakesIn []) :
  (s >>= f).TakesIn given
  := by
  apply Search.TakesIn.bind h
  intro result
  cases result with
  | ok a => exact hf a
  | error e => trivial

theorem takesIn_lift {s : Search α} (h : s.TakesIn given) :
  Finding.TakesIn (ExceptT.lift s) given
  :=
  h.bind fun _ => trivial

/-- A search whose conduct does not let it widen the scope. -/
theorem Heeds.takesIn {s : Finding α} (h : s.Heeds c) (hwidens : ¬ c.widens) :
  s.TakesIn given
  :=
  Search.Heeds.takesIn h hwidens

theorem takesIn_checkpoint (token : Token) :
  (checkpoint token).TakesIn given
  := by
  apply (heeds_checkpoint trivial : Heeds Search.narrow _).takesIn
  exact id

end Finding

/-! ### Children -/

namespace Search

/-- The file of a module is that of the definition its name stands for. -/
theorem takesIn_moduleVertex (searchPath : List Path) (name : String) :
  (moduleVertex searchPath name).TakesIn given
  := by
  apply takesIn_ask_bind
  · intro e
    trivial
  · intro resolved
    cases resolved with
    | none => trivial
    | some d =>
      dsimp only
      cases hpath : d.path with
      | none => trivial
      | some file =>
        apply TakesIn.bind
        · exact takesIn_request (.widen file) ⟨d, List.mem_cons_self, hpath⟩
        · intro _
          trivial

theorem takesIn_moduleVertices (searchPath : List Path) (names : List String) :
  (moduleVertices searchPath names).TakesIn given
  := by
  induction names generalizing given with
  | nil => trivial
  | cons name names ih =>
    apply (takesIn_moduleVertex searchPath name).bind
    intro first
    apply ih.bind
    intro rest
    split
    · trivial
    · trivial

/-- The members of a package are taken in as their names are resolved. -/
theorem takesIn_memberVertices (marker : Path) (package : String) :
  (memberVertices marker package).TakesIn given
  := by
  unfold memberVertices
  split
  · trivial
  · apply TakesIn.bind (takesIn_request .searchPath trivial)
    intro searchPath
    apply TakesIn.bind (takesIn_request .files trivial)
    intro tree
    split
    · apply (takesIn_log _).bind
      intro _
      trivial
    · rename_i members _
      cases members.warning? package with
      | none => apply takesIn_moduleVertices
      | some warning =>
        apply (takesIn_log warning).bind
        intro _
        apply takesIn_moduleVertices

end Search

namespace Finding

theorem takesIn_memberVertices (v : Vertex) (token : Token) :
  (memberVertices v token).TakesIn given
  := by
  unfold memberVertices
  split
  · trivial
  · apply (takesIn_lift (Search.takesIn_memberVertices _ _)).bind
    intro members
    apply (takesIn_checkpoint token).bind
    intro _
    trivial

/-- A search for children takes in the members of a package. -/
theorem takesIn_children (v : Vertex) (token : Token) :
  (children v token).TakesIn given
  := by
  cases hd : v.definition with
  | none =>
    unfold children
    rw [hd]
    trivial
  | some d =>
    rw [children_eq hd]
    apply (takesIn_checkpoint token).bind
    intro _
    apply (takesIn_memberVertices v token).bind
    intro members
    apply (heeds_insideVertices (fun _ _ => trivial) trivial d members : Heeds Search.narrow _).takesIn
    exact id

/-! ### Parents -/

theorem takesIn_parentIn? (v : Vertex) (u : Usage) (d : Definition) :
  (parentIn? v u d).TakesIn given
  := by
  dsimp only [parentIn?]
  split
  · apply (takesIn_lift (Search.takesIn_log _)).bind
    intro _
    trivial
  · trivial

/-- What follows once the scope around a usage is known: its file is taken in. -/
def parentInside? (v : Vertex) (u : Usage) (d : Definition) : Finding (Option Vertex) := do
  if let some file := d.path then request (.widen file)
  parentIn? v u d

/-- The file of the scope around a usage is taken in. -/
theorem takesIn_parentInside? (v : Vertex) (u : Usage) (d : Definition) :
  (parentInside? v u d).TakesIn [d]
  := by
  unfold parentInside?
  cases hpath : d.path with
  | none => apply takesIn_parentIn?
  | some file =>
    apply TakesIn.bind
    · apply takesIn_lift
      exact Search.takesIn_request (.widen file) ⟨d, List.mem_cons_self, hpath⟩
    · intro _
      apply takesIn_parentIn?

theorem takesIn_parentAt? (v : Vertex) (u : Usage) :
  (parentAt? v u).TakesIn given
  := by
  change (Search.andThen (Search.andThen (Search.andThen (Search.ask _ _) _) _) _).TakesIn given
  rw [Search.andThen_assoc, Search.andThen_assoc]
  apply Search.takesIn_ask_bind
  · intro e
    cases e with
    | cancelled => trivial
    | _ =>
      change (Search.andThen (Search.andThen (Search.andThen (Search.report _ _) _) _) _).TakesIn []
      rw [Search.andThen_assoc, Search.andThen_assoc]
      apply (Search.takesIn_report _ _).bind
      intro _
      trivial
  · intro d
    exact takesIn_parentInside? v u d

theorem takesIn_parentsAt (v : Vertex) (token : Token) (usages : List Usage) (seen : List CallPosition) :
  (parentsAt v token seen usages).TakesIn given
  := by
  induction usages generalizing seen given with
  | nil => trivial
  | cons u us ih =>
    apply (takesIn_checkpoint token).bind
    intro _
    split
    · apply ih
    · apply (takesIn_parentAt? v u).bind
      intro parent
      apply (ih _).bind
      intro rest
      trivial

/-- A search for parents takes in the scopes around usages. -/
theorem takesIn_parents (v : Vertex) (token : Token) :
  (parents v token).TakesIn given
  := by
  apply (takesIn_checkpoint token).bind
  intro _
  apply TakesIn.bind (takesIn_lift (Search.takesIn_request .searchedFiles trivial))
  intro files
  split
  · trivial
  · apply TakesIn.bind
    · apply (heeds_askContained trivial trivial _ _ : Heeds Search.narrow _).takesIn
      exact id
    · intro usages
      apply (takesIn_checkpoint token).bind
      intro _
      apply takesIn_parentsAt

end Finding

/-! ### Neighbours -/

namespace Search

theorem takesIn_nodes (vs : List Vertex) :
  (nodes vs).TakesIn given
  := by
  induction vs generalizing given with
  | nil => trivial
  | cons v vs ih =>
    refine ⟨trivial, fun number => ?_⟩
    apply TakesIn.bind ih
    intro rest
    trivial

theorem takesIn_neighbours (caller : Token) (context : String) {find : Token → Finding (List Vertex)}
    (h : ∀ token, (find token).TakesIn []) :
  (neighbours caller context find).TakesIn given
  := by
  refine ⟨trivial, fun token => ?_⟩
  apply (h token).of_nil.bind
  intro result
  cases result with
  | ok vs => exact ⟨trivial, fun _ => trivial⟩
  | error e =>
    apply (takesIn_report e context).bind
    intro _
    exact ⟨trivial, fun _ => trivial⟩

end Search

namespace Vertex

theorem takesIn_children (v : Vertex) (caller : Token) :
  (v.children caller).TakesIn given
  := by
  apply Search.takesIn_neighbours
  intro token
  apply Finding.takesIn_children

theorem takesIn_parents (v : Vertex) (caller : Token) :
  (v.parents caller).TakesIn given
  := by
  apply Search.takesIn_neighbours
  intro token
  apply Finding.takesIn_parents

theorem takesIn_next (v : Vertex) (caller : Token) :
  (v.next caller).TakesIn given
  := by
  unfold next
  split
  · trivial
  dsimp only
  apply Search.TakesIn.bind (Search.takesIn_request (.isCancelled caller) trivial)
  intro cancelled
  split
  · trivial
  apply (takesIn_children v caller).bind
  intro children
  apply Search.TakesIn.bind (Search.takesIn_request (.isCancelled caller) trivial)
  intro cancelled
  split
  · trivial
  apply (takesIn_parents v caller).bind
  intro parents
  apply Search.TakesIn.bind (Search.takesIn_request (.isCancelled caller) trivial)
  intro cancelled
  split
  · trivial
  · trivial

end Vertex

namespace Node

theorem takesIn_children (caller : Token) (node : Node) :
  (node.children caller).TakesIn given
  := by
  cases node with
  | analyzed number v =>
    apply (v.takesIn_children caller).bind
    intro vs
    apply Search.takesIn_nodes
  | organizer number element parents children => trivial

theorem takesIn_parents (caller : Token) (node : Node) :
  (node.parents caller).TakesIn given
  := by
  cases node with
  | analyzed number v =>
    apply (v.takesIn_parents caller).bind
    intro vs
    apply Search.takesIn_nodes
  | organizer number element parents children => trivial

/-- Whatever node is expanded, only members of packages and scopes around usages are taken in. -/
theorem takesIn_next (caller : Token) (node : Node) :
  (node.next caller).TakesIn given
  := by
  cases node with
  | analyzed number v =>
    apply (v.takesIn_next caller).bind
    intro vs
    apply Search.takesIn_nodes
  | organizer number element parents children =>
    unfold next
    dsimp only
    split
    · trivial
    apply Search.TakesIn.bind (Search.takesIn_request (.isCancelled caller) trivial)
    intro cancelled
    split
    · trivial
    · trivial

end Node

end CallGraph
