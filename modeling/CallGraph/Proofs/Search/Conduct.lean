import CallGraph.Search.Neighbours

/-!
# What searches do and when they stop

A `Conduct` says what a search may do: which questions it asks, at which tokens it looks, and whether it widens the
files searched for usages.  A search `Heeds` a conduct when it does no more than this and stops as soon as it learns
that one of its tokens was cancelled.  Searches for children and for parents heed conducts of their own.
-/

namespace CallGraph

/-- What a search may do. -/
structure Conduct where
  asks : Question → Prop
  looks : Token → Prop
  widens : Prop

/-- A request that a search of some conduct may make, if what follows it stops the search when a token was
cancelled. -/
def Request.Heeds {α : Type} (c : Conduct) (stop : α → Prop) : (r : Request) → (r.Reply → Search α) → Prop
  | .pose q, _ => c.asks q
  | .await q token, next => c.asks q ∧ ∀ t ∈ token, c.looks t ∧ ∃ a, stop a ∧ next (.error .cancelled) = .done a
  | .isCancelled t, next => c.looks t ∧ ∃ a, stop a ∧ next true = .done a
  | .widen _, _ => c.widens
  | .searchedFiles, _ | .searchPath, _ | .config, _ | .files, _ | .log _, _ => True
  | .freshToken, _ | .enter _, _ | .leave _, _ | .freshNode, _ => False

/-- A search that keeps to a conduct and stops as soon as it learns that it was cancelled. -/
def Search.Heeds {α : Type} (c : Conduct) (stop : α → Prop) : Search α → Prop
  | .done _ => True
  | .wait r next => r.Heeds c stop next ∧ ∀ reply, (next reply).Heeds c stop

/-- A search that may fail and stops with the error that says that it was cancelled. -/
def Finding.Heeds {α : Type} (c : Conduct) (s : Finding α) : Prop :=
  s.run.Heeds c (· = .error .cancelled)

variable {α β : Type} {c : Conduct} {token : Token}

namespace Search

/-- A search that stops stops what follows it. -/
theorem Heeds.bind {s : Search α} {f : α → Search β} {stop : α → Prop} {last : β → Prop} (h : s.Heeds c stop)
    (hstop : ∀ a, stop a → ∃ b, last b ∧ f a = .done b) (hf : ∀ a, (f a).Heeds c last) :
  (s >>= f).Heeds c last
  := by
  have hfollow {r : Search α} (hr : ∃ a, stop a ∧ r = .done a) : ∃ b, last b ∧ r.andThen f = .done b := by
    obtain ⟨a, ha, rfl⟩ := hr
    exact hstop a ha
  induction s with
  | done a => exact hf a
  | wait r next ih =>
    refine ⟨?_, fun reply => ih reply (h.2 reply)⟩
    cases r with
    | isCancelled t => exact h.1.imp_right hfollow
    | await q token => exact h.1.imp_right fun hlook t ht => (hlook t ht).imp_right hfollow
    | _ => exact h.1

/-- One search that nothing stops after the other. -/
theorem Heeds.andThen {s : Search α} {f : α → Search β} (h : s.Heeds c fun _ => False)
    (hf : ∀ a, (f a).Heeds c fun _ => False) :
  (s >>= f).Heeds c fun _ => False
  :=
  h.bind (fun _ hstop => hstop.elim) hf

/-! ### Searches that nothing stops -/

/-- A request that looks at no token. -/
theorem heeds_request (r : Request) (hr : r.Heeds c (fun _ => False) Search.done) :
  (request r).Heeds c fun _ => False
  :=
  ⟨hr, fun _ => trivial⟩

theorem heeds_log (line : LogLine) :
  (log line).Heeds c fun _ => False
  :=
  heeds_request (.log line) trivial

theorem heeds_report (e : ProviderError) (context : String) :
  (report e context).Heeds c fun _ => False
  := by
  unfold report
  split
  · exact heeds_log _
  · apply Heeds.andThen (heeds_request .config trivial)
    intro config
    split
    · exact heeds_log _
    · exact heeds_log _

/-- A question on behalf of no search. -/
theorem heeds_ask_none {q : Question} (hasks : c.asks q) :
  (ask q none).Heeds c fun _ => False
  := by
  apply Heeds.andThen (heeds_request (.pose q) hasks)
  intro posed
  cases posed with
  | error e => trivial
  | ok _ => exact heeds_request (.await q none) ⟨hasks, by rintro _ ⟨⟩⟩

/-- A question on behalf of a search. -/
theorem heeds_ask {q : Question} (hasks : c.asks q) (hlooks : c.looks token) :
  (ask q (some token)).Heeds c (· = .error .cancelled)
  := by
  refine ⟨hasks, fun posed => ?_⟩
  cases posed with
  | error e => trivial
  | ok _ =>
    refine ⟨⟨hasks, ?_⟩, fun _ => trivial⟩
    rintro _ ⟨⟩
    exact ⟨hlooks, _, rfl, rfl⟩

end Search

/-! ### Searches that may fail -/

namespace Finding

theorem heeds_pure (a : α) :
  (pure a : Finding α).Heeds c
  :=
  trivial

/-- One search after the other. -/
theorem Heeds.bind {s : Finding α} {f : α → Finding β} (h : s.Heeds c) (hf : ∀ a, (f a).Heeds c) :
  (s >>= f).Heeds c
  := by
  apply Search.Heeds.bind h
  · rintro _ rfl
    exact ⟨_, rfl, rfl⟩
  · intro result
    cases result with
    | ok a => exact hf a
    | error e => trivial

/-- A search that nothing stops. -/
theorem heeds_lift {s : Search α} (h : s.Heeds c fun _ => False) :
  Finding.Heeds c (ExceptT.lift s)
  :=
  Search.Heeds.bind h (fun _ hstop => hstop.elim) fun _ => trivial

/-- A request that looks at no token. -/
theorem heeds_request (r : Request) (hr : r.Heeds c (fun _ => False) Search.done) :
  (request r).Heeds c
  :=
  heeds_lift (Search.heeds_request r hr)

theorem heeds_checkpoint (hlooks : c.looks token) :
  (checkpoint token).Heeds c
  := by
  refine ⟨⟨hlooks, _, rfl, rfl⟩, fun cancelled => ?_⟩
  cases cancelled with
  | true => trivial
  | false => trivial

/-- The result of a step whose failure goes no further. -/
theorem heeds_contained (result : Except ProviderError α) (default : α) (context : String) :
  (contained result default context).Heeds c
  := by
  unfold contained
  split
  · trivial
  · trivial
  · exact (heeds_lift (Search.heeds_report _ context)).bind fun _ => heeds_pure default

/-- A question of which a failure goes no further. -/
theorem heeds_askContained {q : Question} (hasks : c.asks q) (hlooks : c.looks token) (default : q.Answer)
    (context : String) :
  (askContained q token default context).Heeds c
  := by
  have hlift : (ExceptT.lift (Search.ask q (some token)) : Finding _).run.Heeds c (· = .ok (.error .cancelled)) := by
    apply (Search.heeds_ask hasks hlooks).bind
    · rintro _ rfl
      exact ⟨_, rfl, rfl⟩
    · intro result
      trivial
  apply Search.Heeds.bind hlift
  · rintro _ rfl
    exact ⟨_, rfl, rfl⟩
  · intro result
    cases result with
    | ok result => exact heeds_contained result default context
    | error e => trivial

/-- A question. -/
theorem heeds_ask {q : Question} (hasks : c.asks q) (hlooks : c.looks token) :
  (ask q (some token)).Heeds c
  :=
  Search.heeds_ask hasks hlooks

end Finding

/-! ### Children -/

namespace Question

/-- A question about a module name. -/
def IsResolve : Question → Prop
  | resolve _ _ => True
  | _ => False

/-- A question about what stands inside a scope. -/
def IsInside : Question → Prop
  | callSites _ | targets _ | scopeNames _ => True
  | _ => False

/-- A question about what uses a symbol. -/
def IsAround : Question → Prop
  | usages _ _ | enclosing _ => True
  | _ => False

end Question

namespace Search

/-- Searches that resolve module names. -/
theorem heeds_moduleVertex (hasks : ∀ q : Question, q.IsResolve → c.asks q) (hwidens : c.widens)
    (searchPath : List Path) (name : String) :
  (moduleVertex searchPath name).Heeds c fun _ => False
  := by
  unfold moduleVertex
  apply (heeds_ask_none (hasks (.resolve name searchPath) trivial)).andThen
  intro result
  split
  · trivial
  · trivial
  · rename_i d
    cases d.path with
    | none => trivial
    | some file => exact (heeds_request (.widen file) hwidens).andThen fun _ => trivial

theorem heeds_moduleVertices (hasks : ∀ q : Question, q.IsResolve → c.asks q) (hwidens : c.widens)
    (searchPath : List Path) (names : List String) :
  (moduleVertices searchPath names).Heeds c fun _ => False
  := by
  induction names with
  | nil => trivial
  | cons name names ih =>
    apply (heeds_moduleVertex hasks hwidens searchPath name).andThen
    intro first
    apply ih.andThen
    intro rest
    split
    · trivial
    · trivial

/-- The members of a package are resolved. -/
theorem heeds_memberVertices (hasks : ∀ q : Question, q.IsResolve → c.asks q) (hwidens : c.widens) (marker : Path)
    (package : String) :
  (memberVertices marker package).Heeds c fun _ => False
  := by
  unfold memberVertices
  split
  · trivial
  · apply Heeds.andThen (heeds_request .searchPath trivial)
    intro searchPath
    apply Heeds.andThen (heeds_request .files trivial)
    intro tree
    split
    · exact (heeds_log _).andThen fun _ => trivial
    · rename_i members _
      cases members.warning? package with
      | none => exact heeds_moduleVertices hasks hwidens _ _
      | some warning => exact (heeds_log warning).andThen fun _ => heeds_moduleVertices hasks hwidens _ _

end Search

namespace Finding

/-- Searches for the targets of call sites. -/
theorem heeds_sitesVertices (hasks : ∀ q : Question, q.IsInside → c.asks q) (hlooks : c.looks token)
    (sites : List CallSite) :
  (sitesVertices token sites).Heeds c
  := by
  induction sites with
  | nil => trivial
  | cons site sites ih =>
    apply (heeds_checkpoint hlooks).bind
    intro _
    apply (heeds_askContained (hasks (.targets site) trivial) hlooks _ _).bind
    intro targets
    exact ih.bind fun rest => heeds_pure _

theorem heeds_callSiteVertices (hasks : ∀ q : Question, q.IsInside → c.asks q) (hlooks : c.looks token)
    (scope : Definition) :
  (callSiteVertices scope token).Heeds c
  :=
  (heeds_ask (hasks (.callSites scope) trivial) hlooks).bind fun sites => heeds_sitesVertices hasks hlooks sites

theorem heeds_scopeNameVertices (hasks : ∀ q : Question, q.IsInside → c.asks q) (hlooks : c.looks token)
    (scope : Definition) :
  (scopeNameVertices scope token).Heeds c
  := by
  apply (heeds_ask (hasks (.scopeNames scope) trivial) hlooks).bind
  intro names
  exact (heeds_checkpoint hlooks).bind fun _ => heeds_pure _

theorem heeds_memberVertices (hasks : ∀ q : Question, q.IsResolve → c.asks q) (hlooks : c.looks token)
    (hwidens : c.widens) (v : Vertex) :
  (memberVertices v token).Heeds c
  := by
  unfold memberVertices
  split
  · trivial
  · apply (heeds_lift (Search.heeds_memberVertices hasks hwidens _ _)).bind
    intro members
    exact (heeds_checkpoint hlooks).bind fun _ => heeds_pure _

/-- Members of a package, and after them what stands inside a scope. -/
def insideVertices (scope : Definition) (token : Token) (members : List Vertex) : Finding (List Vertex) := do
  let inside ← if (← request .config).experimentalMode then scopeNameVertices scope token
    else callSiteVertices scope token
  pure (members ++ inside)

theorem heeds_insideVertices (hasks : ∀ q : Question, q.IsInside → c.asks q) (hlooks : c.looks token)
    (scope : Definition) (members : List Vertex) :
  (insideVertices scope token members).Heeds c
  := by
  apply Heeds.bind (heeds_request .config trivial)
  intro config
  dsimp only
  split
  · exact (heeds_scopeNameVertices hasks hlooks scope).bind fun _ => heeds_pure _
  · exact (heeds_callSiteVertices hasks hlooks scope).bind fun _ => heeds_pure _

/-- A search for children resolves the members of a package and asks what stands inside a scope. -/
def childConduct (token : Token) : Conduct where
  asks q := q.IsResolve ∨ q.IsInside
  looks t := t = token
  widens := True

theorem children_eq {v : Vertex} {d : Definition} (hd : v.definition = some d) (token : Token) :
  children v token = (do
    checkpoint token
    let members ← memberVertices v token
    insideVertices d token members)
  := by
  unfold children
  rw [hd]
  rfl

theorem heeds_children (v : Vertex) (token : Token) :
  (children v token).Heeds (childConduct token)
  := by
  cases hd : v.definition with
  | none =>
    unfold children
    rw [hd]
    trivial
  | some d =>
    rw [children_eq hd]
    refine Heeds.bind (heeds_checkpoint rfl) fun _ => ?_
    refine Heeds.bind (heeds_memberVertices (fun _ => Or.inl) rfl trivial v) fun members => ?_
    exact heeds_insideVertices (fun _ => Or.inr) rfl d members

/-! ### Parents -/

/-- A search for parents asks what uses a symbol. -/
def parentConduct (token : Token) : Conduct where
  asks q := q.IsAround
  looks t := t = token
  widens := True

theorem heeds_enclosing? (u : Usage) :
  (enclosing? u).Heeds (parentConduct token)
  := by
  unfold enclosing?
  refine Heeds.bind (heeds_lift (Search.heeds_ask_none trivial)) fun result => ?_
  split
  · trivial
  · trivial
  · exact (heeds_lift (Search.heeds_report _ _)).bind fun _ => heeds_pure none

/-- The parent in a scope around a usage. -/
def parentIn? (v : Vertex) (u : Usage) (d : Definition) : Finding (Option Vertex) := do
  let parent := Vertex.ofDefinition .parent u.position d
  if v.isDefinedAt parent.element then
    let place := s!"{parent.element.name}:{parent.element.callPosition.start.text}"
    ExceptT.lift (Search.log (.info s!"Usages: Skipped definition of {v.element.name} at {place}"))
    pure none
  else pure (some parent)

theorem heeds_parentIn? (v : Vertex) (u : Usage) (d : Definition) :
  (parentIn? v u d).Heeds (parentConduct token)
  := by
  dsimp only [parentIn?]
  split
  · exact (heeds_lift (Search.heeds_log _)).bind fun _ => heeds_pure none
  · trivial

theorem heeds_parentAt? (v : Vertex) (u : Usage) :
  (parentAt? v u).Heeds (parentConduct token)
  := by
  unfold parentAt?
  apply (heeds_enclosing? u).bind
  intro result
  split
  · trivial
  · rename_i d
    cases d.path with
    | none => exact heeds_parentIn? v u d
    | some file => exact Heeds.bind (heeds_request (.widen file) trivial) fun _ => heeds_parentIn? v u d

theorem heeds_parentsAt (v : Vertex) (usages : List Usage) (seen : List CallPosition) :
  (parentsAt v token seen usages).Heeds (parentConduct token)
  := by
  induction usages generalizing seen with
  | nil => trivial
  | cons u us ih =>
    refine Heeds.bind (heeds_checkpoint rfl) fun _ => ?_
    split
    · exact ih seen
    · apply (heeds_parentAt? v u).bind
      intro parent
      exact (ih _).bind fun _ => heeds_pure _

theorem heeds_parents (v : Vertex) (token : Token) :
  (parents v token).Heeds (parentConduct token)
  := by
  unfold parents
  refine Heeds.bind (heeds_checkpoint rfl) fun _ => ?_
  apply Heeds.bind (heeds_request .searchedFiles trivial)
  intro files
  split
  · trivial
  · apply Heeds.bind (heeds_askContained (by exact trivial) rfl _ _)
    intro usages
    exact Heeds.bind (heeds_checkpoint rfl) fun _ => heeds_parentsAt v _ _

end Finding

end CallGraph
