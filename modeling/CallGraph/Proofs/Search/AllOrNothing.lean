import CallGraph.Proofs.Scripted
import CallGraph.Proofs.Search.Interrupted

/-!
# Expansions that are interrupted

An expansion whose caller is cancelled at any time gives nothing or all rows.  When the searches under way are
stopped, it is each of its parts that is missing or complete: an expansion that lost its children still shows the
leaf of the definition and the parents.
-/

namespace CallGraph

variable {σ α : Type}

/-- What a search finds that gives nothing or all that it finds when it is left alone. -/
def Workspace.AllOrNothing (w : Workspace σ) (s : Search (List α)) (found : List α) : Prop :=
  found = [] ∨ found = (w.run s).1

/-- A search that has no more to do, or first looks whether it was cancelled. -/
def Finding.LooksFirst (search : Token) (s : Finding (List α)) : Prop :=
  s.run = .done (.ok []) ∨ ∃ f, s = checkpoint search >>= f

namespace Workspace.Ends

variable {may : Interruption → Prop} {caller : Token} {w w' : Workspace σ}

theorem provider {s : Search α} {a : α} (h : Ends may caller s w a w') :
  w'.provider = w.provider
  := by
  induction h with
  | done h => exact h.ahead.provider
  | perform h rest ih => rw [ih, perform_provider, h.ahead.provider]
  | @breakOff q t next w u w' a i h hi hcancelled state rest ih =>
    exact ih.trans ((u.ahead_interrupt caller i).trans h.ahead).provider

/-- Vertices become rows whatever is cancelled meanwhile. -/
theorem nodes {vs : List Vertex} {rows : List Node} (h : Ends may caller (Search.nodes vs) w rows w') :
  rows = Node.numbered w.nextNode vs
  := by
  induction vs generalizing w rows w' with
  | nil =>
    cases h
    rfl
  | cons v vs ih =>
    have hnodes : Search.nodes (v :: vs) = Search.request .freshNode >>= fun number =>
        Search.nodes vs >>= fun rest => pure (.analyzed number v :: rest) := rfl
    rw [hnodes] at h
    obtain ⟨u, hu, h⟩ := h.of_request (by rintro _ _ ⟨⟩)
    obtain ⟨rest, u', hrest, h⟩ := h.of_bind
    cases h
    rw [ih hrest, ← hu.ahead.nextNode]
    rfl

/-! ### Searches for neighbours -/

variable {search : Token} {context : String}

/-- Whatever was found is given back. -/
theorem closing {result : Except ProviderError (List Vertex)} {found : List Vertex}
    (h : Ends may caller (Search.closing search context result) w found w') :
  found = Search.found result
  := by
  have hleave {vs : List Vertex} {w : Workspace σ}
      (h : Ends may caller (Search.request (.leave search) >>= fun _ => pure vs) w found w') : found = vs := by
    obtain ⟨u, -, h⟩ := h.of_request (by rintro _ _ ⟨⟩)
    cases h
    rfl
  cases result with
  | ok vs => exact hleave h
  | error e =>
    have hclosing : Search.closing search context (.error e) =
        Search.report e context >>= fun _ => Search.request (.leave search) >>= fun _ => pure [] := rfl
    rw [hclosing] at h
    obtain ⟨_, u, -, h⟩ := h.of_bind
    exact hleave h

/-- A search that was cancelled does not get past a checkpoint. -/
theorem checkpoint {f : Unit → Finding α} {result : Except ProviderError α}
    (h : Ends may caller (Finding.checkpoint search >>= f).run w result w')
    (hcancelled : w.searches.isCancelled search = true) :
  result = .error .cancelled
  := by
  cases h with
  | @perform _ _ _ u _ _ h rest =>
    have hreply : (u.perform (.isCancelled search)).1 = true := h.ahead.isCancelled hcancelled
    rw [hreply] at rest
    change Ends may caller (Search.done (Except.error ProviderError.cancelled)) _ _ _ at rest
    cases rest
    rfl

/-- A search for neighbours finds nothing if it is stopped. -/
theorem neighbours {c : Token → Conduct} {find : Token → Finding (List Vertex)} {found : List Vertex}
    (h : Ends may caller (Search.neighbours caller context find) w found w') (hp : w.provider.Heeds)
    (hfind : ∀ t, (find t).Heeds (c t)) (hlooks : ∀ t u, (c t).looks u → u = t) (hfirst : ∀ t, (find t).LooksFirst t) :
  w.AllOrNothing (Search.neighbours caller context find) found
  := by
  have hneighbours : Search.neighbours caller context find =
      Search.request (.enter caller) >>= fun t => Search.begun t context (find t) := rfl
  rw [AllOrNothing, run_neighbours]
  rw [hneighbours] at h
  obtain ⟨u, hu, h⟩ := h.of_request (by rintro _ _ ⟨⟩)
  obtain ⟨hsearch, hahead⟩ : (u.perform (.enter caller)).1 = (w.perform (.enter caller)).1 ∧
      (u.perform (.enter caller)).2.Ahead (w.perform (.enter caller)).2 := by
    obtain ⟨cancelled, rfl, hmore⟩ := hu.ahead
    exact ⟨rfl, cancelled, rfl, hmore⟩
  rw [hsearch, Search.begun_eq] at h
  obtain ⟨result, u', hresult, hclosing⟩ := h.of_bind
  rw [hclosing.closing]
  set search := (w.perform (.enter caller)).1
  cases hlive : (w.perform (.enter caller)).2.searches.isCancelled search with
  | true =>
    left
    rcases hfirst search with hdone | ⟨f, hf⟩
    · rw [hdone] at hresult
      cases hresult
      rfl
    · rw [hf] at hresult
      rw [hresult.checkpoint (hahead.isCancelled hlive)]
      rfl
  | false =>
    have hprovider : (u.perform (.enter caller)).2.provider.Heeds := by
      rwa [perform_provider, hu.ahead.provider]
    have hlive' (t : Token) (ht : (c search).looks t) :
        (w.perform (.enter caller)).2.searches.isCancelled t = false := by
      rw [hlooks search t ht]
      exact hlive
    rcases hresult.inStep (hfind search) hprovider hahead hlive' with rfl | ⟨heq, -⟩
    · exact .inl rfl
    · right
      rw [heq]

end Workspace.Ends

/-! ### Expansions -/

namespace Finding

theorem looksFirst_children (v : Vertex) (token : Token) :
  (children v token).LooksFirst token
  := by
  cases hd : v.definition with
  | none =>
    left
    unfold children
    rw [hd]
    rfl
  | some d => exact .inr ⟨_, children_eq hd token⟩

theorem looksFirst_parents (v : Vertex) (token : Token) :
  (parents v token).LooksFirst token
  :=
  .inr ⟨_, rfl⟩

end Finding

open Workspace

namespace Vertex

variable {may : Interruption → Prop} {caller : Token} {w w' : Workspace σ}

theorem ends_children {v : Vertex} {found : List Vertex} (h : Ends may caller (v.children caller) w found w')
    (hp : w.provider.Heeds) :
  w.AllOrNothing (v.children caller) found
  :=
  h.neighbours hp (Finding.heeds_children v) (fun _ _ => id) (Finding.looksFirst_children v)

theorem ends_parents {v : Vertex} {found : List Vertex} (h : Ends may caller (v.parents caller) w found w')
    (hp : w.provider.Heeds) :
  w.AllOrNothing (v.parents caller) found
  :=
  h.neighbours hp (Finding.heeds_parents v) (fun _ _ => id) (Finding.looksFirst_parents v)

/-- The parts of an expansion that was interrupted: the leaf of the definition, children and parents, of which the
children and the parents may be missing. -/
def EndsInParts (may : Interruption → Prop) (caller : Token) (w : Workspace σ) (v : Vertex) (found : List Vertex) :
    Prop :=
  ∃ (children parents : List Vertex) (u : Workspace σ),
    Ends may caller (v.children caller) w children u ∧ found = v.signature?.toList ++ children ++ parents ∧
      w.AllOrNothing (v.children caller) children ∧ u.AllOrNothing (v.parents caller) parents

/-- An expansion that is interrupted gives nothing, or the leaf of the definition and whole parts. -/
theorem endsInParts_of_ends {v : Vertex} {found : List Vertex} (h : Ends may caller (v.next caller) w found w')
    (hp : w.provider.Heeds) :
  found = [] ∨ v.EndsInParts may caller w found
  := by
  rw [next] at h
  split at h
  · cases h
    exact .inl rfl
  · obtain ⟨u₁, hu₁, h⟩ := h.of_request (by rintro _ _ ⟨⟩)
    split at h
    · cases h
      exact .inl rfl
    · obtain ⟨children, u₂, hchildren, h⟩ := h.of_bind
      replace hchildren := hchildren.of_interrupted hu₁
      obtain ⟨u₃, hu₃, h⟩ := h.of_request (by rintro _ _ ⟨⟩)
      split at h
      · cases h
        exact .inl rfl
      · obtain ⟨parents, u₄, hparents, h⟩ := h.of_bind
        replace hparents := hparents.of_interrupted hu₃
        obtain ⟨u₅, -, h⟩ := h.of_request (by rintro _ _ ⟨⟩)
        split at h
        · cases h
          exact .inl rfl
        · cases h
          have hp' : u₂.provider.Heeds := by rwa [hchildren.provider]
          exact .inr ⟨children, parents, u₂, hchildren, rfl, ends_children hchildren hp, ends_parents hparents hp'⟩

/-- A vertex's expansion looks at its caller in the end. -/
theorem guarded_next (v : Vertex) (caller : Token) :
  (v.next caller).Guarded caller (· = [])
  := by
  rw [next]
  split
  · rfl
  · apply Search.Guarded.bind
    intro cancelled
    split
    · rfl
    · apply Search.Guarded.bind
      intro children
      apply Search.Guarded.bind
      intro cancelled
      split
      · rfl
      · apply Search.Guarded.bind
        intro parents
        exact .inl ⟨rfl, ⟨[], rfl, rfl⟩, _, rfl⟩

end Vertex

namespace Node

variable {caller : Token} {w w' : Workspace σ} {rows : List Node}

/-- The rows of an expansion during which searches under way were stopped. -/
def EndsInParts (caller : Token) (w : Workspace σ) (rows : List Node) : Node → Prop
  | .analyzed _ v => ∃ number found, rows = numbered number found ∧ v.EndsInParts (fun _ => True) caller w found
  | .organizer number element parents children =>
    rows = (w.run (Node.next caller (.organizer number element parents children))).1

/-- An expansion whose caller is cancelled gives nothing or all rows. -/
theorem ends_next_caller {n : Node} (h : Ends (· = .caller) caller (n.next caller) w rows w')
    (hp : w.provider.LeavesSearches) :
  w.AllOrNothing (n.next caller) rows
  := by
  cases n with
  | analyzed number v =>
    obtain ⟨found, u, hfound, hrows⟩ := h.of_bind
    rw [hrows.nodes]
    rcases hfound.guarded (v.guarded_next caller) hp with rfl | ⟨rfl, hahead⟩
    · exact .inl rfl
    · right
      rw [next, run_bind, run_nodes_eq_numbered, hahead.nextNode]
  | organizer number element parents children =>
    have hguarded : (next caller (.organizer number element parents children)).Guarded caller (· = []) := by
      rw [next]
      split
      · rfl
      · exact .inl ⟨rfl, ⟨[], rfl, rfl⟩, _, rfl⟩
    exact (h.guarded hguarded hp).imp_right And.left

/-- An expansion whose caller or searches are cancelled gives nothing or whole parts. -/
theorem ends_next_searches {n : Node} (h : Ends (fun _ => True) caller (n.next caller) w rows w')
    (hp : w.provider.Heeds) :
  rows = [] ∨ n.EndsInParts caller w rows
  := by
  cases n with
  | analyzed number v =>
    obtain ⟨found, u, hfound, hrows⟩ := h.of_bind
    rw [hrows.nodes]
    rcases v.endsInParts_of_ends hfound hp with rfl | hparts
    · exact .inl rfl
    · exact .inr ⟨_, found, rfl, hparts⟩
  | organizer number element parents children =>
    rw [EndsInParts]
    rw [next] at h ⊢
    split at h
    case isTrue =>
      cases h
      exact .inl rfl
    case isFalse hrole =>
      obtain ⟨u, hu, h⟩ := h.of_request (by rintro _ _ ⟨⟩)
      split at h
      case isTrue =>
        cases h
        exact .inl rfl
      case isFalse hlive =>
        cases h
        right
        have hlive' : w.searches.isCancelled caller = false :=
          Bool.eq_false_iff.mpr fun hcancelled => hlive (hu.ahead.isCancelled hcancelled)
        rw [if_neg hrole, run_isCancelled_bind hlive', if_neg Bool.false_ne_true]
        rfl

/-- An expansion whose caller is cancelled gives nothing or all rows.  One whose searches are stopped gives
nothing, or the leaf of the definition and whole parts. -/
theorem ends_next (n : Node) (caller : Token) (w w' : Workspace σ) (rows : List Node) :
  (w.provider.LeavesSearches → Ends (· = .caller) caller (n.next caller) w rows w' →
      w.AllOrNothing (n.next caller) rows) ∧
    (w.provider.Heeds → Ends (fun _ => True) caller (n.next caller) w rows w' →
      rows = [] ∨ n.EndsInParts caller w rows)
  :=
  ⟨fun hp h => ends_next_caller h hp, fun hp h => ends_next_searches h hp⟩

end Node

/-! ### A search that is stopped -/

namespace Scripted

/-- For a search that was not cancelled the answer is the same whatever else was. -/
theorem answer_of_live {q : Question} {token : Option Token} {state : Scripted} {searches : Searches}
    (h : Provider.Desk.isCancelled ⟨state, searches⟩ token = false) :
  answer q token ⟨state, searches⟩ = ((answer q none ⟨state, {}⟩).1, ⟨(answer q none ⟨state, {}⟩).2.state, searches⟩)
  := by
  have hnone : Provider.Desk.isCancelled ⟨state, {}⟩ none = false := rfl
  unfold answer
  rw [h, hnone, if_neg Bool.false_ne_true, if_neg Bool.false_ne_true]
  cases q with
  | callSites scope => rfl
  | _ =>
    dsimp only
    split
    · rfl
    · rfl

/-- No token is cancelled as long as nothing was. -/
theorem isCancelled_empty (state : Scripted) (token : Option Token) :
  Provider.Desk.isCancelled ⟨state, {}⟩ token = false
  := by
  cases token with
  | none => rfl
  | some t =>
    rw [← Bool.not_eq_true]
    intro hcancelled
    obtain ⟨u, hu, -⟩ := (Signals.isCancelled_iff {} t).mp hcancelled
    cases hu

/-- The scripted provider breaks off nothing but answers for searches that were cancelled. -/
theorem provider_heeds :
  provider.Heeds
  := by
  constructor
  · intro q state searches
    cases q <;> rfl
  · intro files q token state searches
    change answer q token _ = ((answer q token _).1, ⟨(answer q token _).2.state, _⟩) ∨ _ ∧ ∃ _, answer q token _ = _
    cases hcancelled : Provider.Desk.isCancelled ⟨state, searches⟩ token with
    | true =>
      right
      refine ⟨?_, state, if_pos hcancelled⟩
      cases token with
      | none => cases hcancelled
      | some t => exact ⟨t, rfl, hcancelled⟩
    | false =>
      left
      rw [answer_of_live hcancelled, answer_of_live (isCancelled_empty state token)]

/-- A workspace in which a function calls another one that is not known. -/
def calling : Workspace Scripted :=
  { provider
    analysis := ({} : Scripted).addCallSite "main" ⟨"helper", none, .child, some ⟨"/m.py"⟩, .known 2 4, .known 2 10⟩ []
    files := {}
    config := {} }

/-- The function that calls. -/
def main : Node :=
  .analyzed 0 (.ofDefinition .definition .unknown ⟨"main", "function", "m", some ⟨"/m.py"⟩, .known 1 4, .known 1 8⟩)

end Scripted

namespace Node

open Scripted

/-- The caller is cancelled, or all searches are stopped, when the search for children has begun. -/
theorem ends_next_main :
  (∃ rows w', Ends (· = .caller) (.root 0) (main.next (.root 0)) calling rows w' ∧
      calling.AllOrNothing (main.next (.root 0)) rows) ∧
    ∃ rows w', Ends (fun _ => True) (.root 0) (main.next (.root 0)) calling rows w' ∧
      (rows = [] ∨ main.EndsInParts (.root 0) calling rows)
  := by
  have hcaller : Ends (· = .caller) (.root 0) (main.next (.root 0)) calling _ _ :=
    .perform (.refl _) (.perform (.refl _) (.perform (.step rfl (.refl _)) (ends_run _ _ _ _)))
  have hsearches : Ends (fun _ => True) (.root 0) (main.next (.root 0)) calling _ _ :=
    .perform (.refl _) (.perform (.refl _) (.perform (.step (i := .searches) trivial (.refl _)) (ends_run _ _ _ _)))
  exact ⟨⟨_, _, hcaller, (ends_next main (.root 0) calling _ _).1 provider_heeds.leavesSearches hcaller⟩,
    _, _, hsearches, (ends_next main (.root 0) calling _ _).2 provider_heeds hsearches⟩

/-- When all searches are stopped as that for the children begins, the leaf of the definition is left. -/
theorem not_allOrNothing_main :
  calling.provider.Heeds ∧ ∃ rows w', Ends (· = .searches) (.root 0) (main.next (.root 0)) calling rows w' ∧
    ¬ calling.AllOrNothing (main.next (.root 0)) rows
  := by
  refine ⟨provider_heeds, _, _,
    .perform (.refl _) (.perform (.refl _) (.perform (.step rfl (.refl _)) (ends_run _ _ _ _))), ?_⟩
  rintro (h | h)
  · exact absurd (congrArg List.length h) (by decide)
  · exact absurd (congrArg List.length h) (by decide)

end Node

end CallGraph
