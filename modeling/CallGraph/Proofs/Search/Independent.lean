import CallGraph.Proofs.Search.Parts

/-!
# The parts of an expansion do not depend on each other

Two providers may agree on some questions and answer all others differently, with errors or not.  Searches that
ask only what they agree on find the same with both: `Alike.run`.  A search that asks only other questions, and does
not widen the files searched, changes nothing that they depend on: `Alike.run_left`.  So the children of a node
are the same whatever is said about usages, and its parents whatever is said about what stands inside of it.
-/

namespace CallGraph

variable {σ τ α β : Type}

/-! ### Providers that agree -/

/-- Two providers that give the same answers to some questions in any two related states, and keep them related. -/
structure Provider.Agree (R : σ → τ → Prop) (asks : Question → Prop) (p : Provider σ) (p' : Provider τ) : Prop where
  pose : ∀ q, asks q → ∀ state state' searches, R state state' →
    (p.pose q ⟨state, searches⟩).1 = (p'.pose q ⟨state', searches⟩).1 ∧
      R (p.pose q ⟨state, searches⟩).2.state (p'.pose q ⟨state', searches⟩).2.state
  answer : ∀ files q token, asks q → ∀ state state' searches, R state state' →
    (p.answer files q token ⟨state, searches⟩).1 = (p'.answer files q token ⟨state', searches⟩).1 ∧
      R (p.answer files q token ⟨state, searches⟩).2.state (p'.answer files q token ⟨state', searches⟩).2.state

/-- A provider that by some questions gets into no other relation. -/
structure Provider.Keeps (R : σ → τ → Prop) (asks : Question → Prop) (p : Provider σ) : Prop where
  pose : ∀ q, asks q → ∀ state state' searches, R state state' → R (p.pose q ⟨state, searches⟩).2.state state'
  answer : ∀ files q token, asks q → ∀ state state' searches, R state state' →
    R (p.answer files q token ⟨state, searches⟩).2.state state'

/-- Two workspaces that differ in the provider, its state and the log only. -/
structure Workspace.Alike (R : σ → τ → Prop) (p : Provider σ) (p' : Provider τ) (w : Workspace σ) (w' : Workspace τ) :
    Prop where
  left : w.provider = p
  right : w'.provider = p'
  analysis : R w.analysis w'.analysis
  files : w.files = w'.files
  config : w.getConfig.1 = w'.getConfig.1
  scope : w.scope = w'.scope
  searchPath : w.searchPath = w'.searchPath
  searches : w.searches = w'.searches
  nextNode : w.nextNode = w'.nextNode

/-! ### Searches that ask some questions only -/

/-- A request that asks some questions only. -/
def Request.Asks (asks : Question → Prop) : Request → Prop
  | .pose q => asks q
  | .await q _ => asks q
  | _ => True

/-- A search that asks some questions only. -/
def Search.Asks (asks : Question → Prop) : Search α → Prop
  | .done _ => True
  | .wait r next => r.Asks asks ∧ ∀ reply, (next reply).Asks asks

namespace Search

variable {asks : Question → Prop}

theorem Asks.bind {s : Search α} {f : α → Search β} (h : s.Asks asks) (hf : ∀ a, (f a).Asks asks) :
  (s >>= f).Asks asks
  := by
  induction s with
  | done a => exact hf a
  | wait r next ih => exact ⟨h.1, fun reply => ih reply (h.2 reply)⟩

/-- A search asks no more than its conduct says. -/
theorem asks_of_heeds {c : Conduct} {stop : α → Prop} {s : Search α} (h : s.Heeds c stop)
    (hasks : ∀ q, c.asks q → asks q) :
  s.Asks asks
  := by
  induction s with
  | done a => trivial
  | wait r next ih =>
    refine ⟨?_, fun reply => ih reply (h.2 reply)⟩
    cases r with
    | pose q => exact hasks q h.1
    | await q token => exact hasks q h.1.1
    | _ => trivial

theorem asks_closing (search : Token) (context : String) (result : Except ProviderError (List Vertex)) :
  (closing search context result).Asks asks
  := by
  have hleave (found : List Vertex) : (request (.leave search) >>= fun _ => pure found).Asks asks :=
    ⟨trivial, fun _ => trivial⟩
  cases result with
  | ok found => exact hleave found
  | error e =>
    have hreport : (report e context).Asks asks :=
      asks_of_heeds (heeds_report (c := ⟨asks, fun _ => False, False⟩) e context) fun _ => id
    exact hreport.bind fun _ => hleave []

/-- A search for neighbours asks what the search proper asks. -/
theorem asks_neighbours {find : Token → Finding (List Vertex)} (hfind : ∀ t, (find t).run.Asks asks) (caller : Token)
    (context : String) :
  (neighbours caller context find).Asks asks
  :=
  ⟨trivial, fun search => (hfind search).bind (asks_closing search context)⟩

end Search

namespace Workspace.Alike

variable {R : σ → τ → Prop} {p : Provider σ} {p' : Provider τ} {w : Workspace σ} {w' : Workspace τ}
  {asks : Question → Prop}

theorem symm (h : w.Alike R p p' w') :
  w'.Alike (fun state' state => R state state') p' p w
  :=
  ⟨h.right, h.left, h.analysis, h.files.symm, h.config.symm, h.scope.symm, h.searchPath.symm, h.searches.symm,
    h.nextNode.symm⟩

/-- What a provider was consulted about, if it leaves the searches alone. -/
theorem consult (h : w.Alike R p p' w') {work : StateM (Provider.Desk σ) α} {work' : StateM (Provider.Desk τ) β}
    (hstate : R (work ⟨w.analysis, w.searches⟩).2.state (work' ⟨w'.analysis, w'.searches⟩).2.state)
    (hwork : (work ⟨w.analysis, w.searches⟩).2.searches = w.searches)
    (hwork' : (work' ⟨w'.analysis, w'.searches⟩).2.searches = w'.searches) :
  (w.consult work).2.Alike R p p' (w'.consult work').2
  := by
  refine ⟨h.left, h.right, hstate, h.files, h.config, h.scope, h.searchPath, ?_, h.nextNode⟩
  exact hwork.trans (h.searches.trans hwork'.symm)

/-! ### Searches with both -/

section Both

variable (hp : p.LeavesSearches) (hp' : p'.LeavesSearches) (hagree : p.Agree R asks p')

include hp hp' hagree

/-- What both providers are asked together. -/
theorem perform (h : w.Alike R p p' w') {r : Request} (hr : r.Asks asks) :
  (w.perform r).1 = (w'.perform r).1 ∧ (w.perform r).2.Alike R p p' (w'.perform r).2
  := by
  obtain ⟨rfl, rfl, hanalysis, hfiles, hconfig, hscope, hsearchPath, hsearches, hnextNode⟩ := id h
  cases r with
  | pose q =>
    obtain ⟨hreply, hstate⟩ := hagree.pose q hr w.analysis w'.analysis w.searches hanalysis
    rw [hsearches] at hreply hstate
    refine ⟨?_, h.consult ?_ (hp.pose q _) (hp'.pose q _)⟩
    · change (w.provider.pose q ⟨w.analysis, w.searches⟩).1 = _
      rw [hsearches]
      exact hreply
    · rw [hsearches]
      exact hstate
  | await q token =>
    obtain ⟨hreply, hstate⟩ := hagree.answer w.files q token hr w.analysis w'.analysis w.searches hanalysis
    rw [hfiles, hsearches] at hreply hstate
    refine ⟨?_, h.consult ?_ (hp.answer _ q token _) (hp'.answer _ q token _)⟩
    · change (w.provider.answer w.files q token ⟨w.analysis, w.searches⟩).1 = _
      rw [hfiles, hsearches]
      exact hreply
    · rw [hfiles, hsearches]
      exact hstate
  | isCancelled t => exact ⟨congrArg (·.isCancelled t) hsearches, h⟩
  | searchedFiles => exact ⟨congrArg SearchScope.snapshot hscope, h⟩
  | searchPath => exact ⟨hsearchPath, h⟩
  | files => exact ⟨hfiles, h⟩
  | log line => exact ⟨rfl, { h with }⟩
  | config =>
    refine ⟨hconfig, { h with config := ?_ }⟩
    rw [getConfig_perform, getConfig_perform, hconfig]
  | widen file => exact ⟨rfl, { h with scope := congrArg (·.insert file) hscope }⟩
  | freshNode => exact ⟨hnextNode, { h with nextNode := congrArg (· + 1) hnextNode }⟩
  | freshToken =>
    refine ⟨congrArg (·.signals.fresh.1) hsearches, { h with searches := ?_ }⟩
    exact congrArg (fun c : Searches => { c with signals := c.signals.fresh.2 }) hsearches
  | enter caller =>
    exact ⟨congrArg (·.enter caller |>.1) hsearches, { h with searches := congrArg (·.enter caller |>.2) hsearches }⟩
  | leave search => exact ⟨rfl, { h with searches := congrArg (·.leave search) hsearches }⟩

/-- What both providers are asked together, one question after the other. -/
theorem run (h : w.Alike R p p' w') {s : Search α} (hs : s.Asks asks) :
  (w.run s).1 = (w'.run s).1 ∧ (w.run s).2.Alike R p p' (w'.run s).2
  := by
  induction s generalizing w w' with
  | done a => exact ⟨rfl, h⟩
  | wait r next ih =>
    obtain ⟨hreply, hperform⟩ := h.perform hp hp' hagree hs.1
    rw [run_wait, run_wait, ← hreply]
    exact ih _ hperform (hs.2 _)

end Both

/-! ### Searches with one of them -/

section Aside

variable (hp : p.LeavesSearches) {c : Conduct} (hwidens : ¬c.widens) {stop : α → Prop}

include hp hwidens

/-- What one provider is asked that the other one need not answer. -/
theorem perform_left (hkeeps : p.Keeps R c.asks) (h : w.Alike R p p' w') {r : Request} {next : r.Reply → Search α}
    (hr : r.Heeds c stop next) :
  (w.perform r).2.Alike R p p' w'
  := by
  obtain ⟨rfl, rfl, hanalysis, hfiles, hconfig, hscope, hsearchPath, hsearches, hnextNode⟩ := id h
  cases r with
  | pose q =>
    exact ⟨rfl, rfl, hkeeps.pose q hr _ _ w.searches hanalysis, hfiles, hconfig, hscope, hsearchPath,
      (hp.pose q _).trans hsearches, hnextNode⟩
  | await q token =>
    exact ⟨rfl, rfl, hkeeps.answer w.files q token hr.1 _ _ w.searches hanalysis, hfiles, hconfig, hscope,
      hsearchPath, (hp.answer w.files q token _).trans hsearches, hnextNode⟩
  | config => exact { h with config := (w.getConfig_perform .config).trans hconfig }
  | log line => exact { h with }
  | widen file => exact absurd hr hwidens
  | freshToken | enter _ | leave _ | freshNode => cases hr
  | _ => exact h

/-- A search of one workspace that the other one need not know of. -/
theorem run_left (hkeeps : p.Keeps R c.asks) (h : w.Alike R p p' w') {s : Search α} (hs : s.Heeds c stop) :
  (w.run s).2.Alike R p p' w'
  := by
  induction s generalizing w with
  | done a => exact h
  | wait r next ih => exact ih _ (h.perform_left hp hwidens hkeeps hs.1) (hs.2 _)

end Aside

/-- A search of the other workspace. -/
theorem run_right (hp' : p'.LeavesSearches) {c : Conduct} (hwidens : ¬c.widens) {stop : α → Prop}
    (hkeeps : p'.Keeps (fun state' state => R state state') c.asks) (h : w.Alike R p p' w') {s : Search α}
    (hs : s.Heeds c stop) :
  w.Alike R p p' (w'.run s).2
  :=
  (h.symm.run_left hp' hwidens hkeeps hs).symm

/-! ### Searches for neighbours -/

/-- One search after the other, unless the first one failed. -/
theorem run_bind {s : Finding α} {f : α → Finding β}
    (h : (w.run s.run).1 = (w'.run s.run).1 ∧ (w.run s.run).2.Alike R p p' (w'.run s.run).2)
    (hf : ∀ a {u : Workspace σ} {u' : Workspace τ}, u.Alike R p p' u' →
      (u.run (f a).run).2.Alike R p p' (u'.run (f a).run).2) :
  (w.run (s >>= f).run).2.Alike R p p' (w'.run (s >>= f).run).2
  := by
  have hbind : (s >>= f).run = s.run >>= ExceptT.bindCont f := rfl
  rw [hbind, Workspace.run_bind, Workspace.run_bind, ← h.1]
  cases (w.run s.run).1 with
  | ok a => exact hf a h.2
  | error e => exact h.2

/-- What follows the search proper is nothing to the other workspace until the search is left. -/
theorem exists_run_closing (hp : p.LeavesSearches) (h : w.Alike R p p' w') (search : Token) (context : String)
    (result : Except ProviderError (List Vertex)) :
  ∃ u : Workspace σ, u.Alike R p p' w' ∧
    (w.run (Search.closing search context result)).2 = (u.perform (.leave search)).2
  := by
  cases result with
  | ok found => exact ⟨w, h, rfl⟩
  | error e =>
    have hreport := Search.heeds_report (c := ⟨fun _ => False, fun _ => False, False⟩) e context
    have hkeeps : p.Keeps R fun _ => False := ⟨fun _ hfalse => hfalse.elim, fun _ _ _ hfalse => hfalse.elim⟩
    refine ⟨_, h.run_left hp id hkeeps hreport, ?_⟩
    have hclosing : Search.closing search context (.error e) =
        Search.report e context >>= fun _ => Search.request (.leave search) >>= fun _ => pure [] := rfl
    rw [hclosing, Workspace.run_bind]
    rfl

variable (hp : p.LeavesSearches) (hp' : p'.LeavesSearches)

include hp hp'

/-- Whatever the searches proper found. -/
theorem run_closing (h : w.Alike R p p' w') (search : Token) (context : String)
    (result result' : Except ProviderError (List Vertex)) :
  (w.run (Search.closing search context result)).2.Alike R p p' (w'.run (Search.closing search context result')).2
  := by
  obtain ⟨u, hu, hrun⟩ := h.exists_run_closing hp search context result
  obtain ⟨u', hu', hrun'⟩ := hu.symm.exists_run_closing hp' search context result'
  rw [hrun, hrun']
  exact { hu'.symm with searches := congrArg (·.leave search) hu'.symm.searches }

/-- What the providers say about what stands inside of a vertex is nothing to what follows. -/
theorem run_children (hagree : p.Agree R Question.IsResolve p') (hkeeps : p.Keeps R Question.IsInside)
    (hkeeps' : p'.Keeps (fun state' state => R state state') Question.IsInside) (h : w.Alike R p p' w')
    (v : Vertex) (caller : Token) :
  (w.run (v.children caller)).2.Alike R p p' (w'.run (v.children caller)).2
  := by
  have hboth {α : Type} {s : Search α} {u : Workspace σ} {u' : Workspace τ} (hs : s.Asks Question.IsResolve)
      (h : u.Alike R p p' u') := h.run hp hp' hagree hs
  have hfind (search : Token) {u : Workspace σ} {u' : Workspace τ} (h : u.Alike R p p' u') :
      (u.run (Finding.children v search).run).2.Alike R p p' (u'.run (Finding.children v search).run).2 := by
    cases hd : v.definition with
    | none =>
      unfold Finding.children
      rw [hd]
      exact h
    | some d =>
      let resolving : Conduct := ⟨Question.IsResolve, (· = search), True⟩
      let inside : Conduct := ⟨Question.IsInside, (· = search), False⟩
      rw [Finding.children_eq hd]
      apply run_bind (hboth (Search.asks_of_heeds (c := resolving) (Finding.heeds_checkpoint rfl) fun _ => id) h)
      intro _ u u' h
      apply run_bind (hboth (Search.asks_of_heeds (c := resolving)
        (Finding.heeds_memberVertices (fun _ => id) rfl trivial v) fun _ => id) h)
      intro members u u' h
      have hinside : (Finding.insideVertices d search members).Heeds inside :=
        Finding.heeds_insideVertices (fun _ => id) rfl d members
      exact (h.run_left hp id hkeeps hinside).run_right hp' id hkeeps' hinside
  have hneighbours {ρ : Type} (w : Workspace ρ) : w.run (v.children caller) =
      (w.perform (.enter caller)).2.run (Search.begun (w.perform (.enter caller)).1
        s!"while finding outbound connections of {v.text}" (Finding.children v (w.perform (.enter caller)).1)) := rfl
  obtain ⟨hsearch, henter⟩ := h.perform hp hp' hagree (r := .enter caller) trivial
  rw [hneighbours, hneighbours, ← hsearch, Search.begun_eq, Workspace.run_bind, Workspace.run_bind]
  exact (hfind _ henter).run_closing hp hp' _ _ _ _

/-- The search for the children finds the same. -/
theorem run_children_eq (hagree : p.Agree R (fun q => q.IsResolve ∨ q.IsInside) p') (h : w.Alike R p p' w')
    (v : Vertex) (caller : Token) :
  (w.run (v.children caller)).1 = (w'.run (v.children caller)).1
  := by
  have hasks (t : Token) : (Finding.children v t).run.Asks fun q => q.IsResolve ∨ q.IsInside :=
    Search.asks_of_heeds (Finding.heeds_children v t) fun _ => id
  exact (h.run hp hp' hagree (Search.asks_neighbours hasks caller _)).1

/-- The search for the parents finds the same. -/
theorem run_parents_eq (hagree : p.Agree R Question.IsAround p') (h : w.Alike R p p' w') (v : Vertex)
    (caller : Token) :
  (w.run (v.parents caller)).1 = (w'.run (v.parents caller)).1
  := by
  have hasks (t : Token) : (Finding.parents v t).run.Asks Question.IsAround :=
    Search.asks_of_heeds (Finding.heeds_parents v t) fun _ => id
  exact (h.run hp hp' hagree (Search.asks_neighbours hasks caller _)).1

end Workspace.Alike

/-- Providers that agree on some questions agree on fewer. -/
theorem Provider.Agree.mono {R : σ → τ → Prop} {p : Provider σ} {p' : Provider τ} {asks asks' : Question → Prop}
    (h : p.Agree R asks p') (hasks : ∀ q, asks' q → asks q) :
  p.Agree R asks' p'
  :=
  ⟨fun q hq => h.pose q (hasks q hq), fun files q token hq => h.answer files q token (hasks q hq)⟩

/-! ### The segments of an expansion -/

/-- The rows that a node is expanded into, by what they show. -/
structure Segments where
  signature : List Node := []
  children : List Node := []
  parents : List Node := []

/-- All rows in order. -/
def Segments.rows (s : Segments) : List Node :=
  s.signature ++ s.children ++ s.parents

namespace Node

/-- The segments of an expansion: the leaf of the definition, what the search for the children finds, and what the
search for the parents finds after that. -/
def segments (caller : Token) (w : Workspace σ) : Node → Segments
  | analyzed _ v =>
    if v.element.role = .signature then {}
    else
      let leaf := v.signature?.toList
      let children := w.run (v.children caller)
      let parents := children.2.run (v.parents caller)
      { signature := numbered w.nextNode leaf
        children := numbered (w.nextNode + leaf.length) children.1
        parents := numbered (w.nextNode + leaf.length + children.1.length) parents.1 }
  | organizer _ element parents children => if element.role = .signature then {} else { children, parents }

/-- Whether a node is expanded into a leaf that shows its definition. -/
def HasSignature (n : Node) : Prop :=
  n.isOrganizer = false ∧ n.element.isModule = false ∧ n.element.role ≠ .signature ∧ n.element.path.isSome

instance decidableHasSignature (n : Node) : Decidable n.HasSignature :=
  inferInstanceAs (Decidable (_ ∧ _))

theorem numbered_append (number : Nat) (vs us : List Vertex) :
  numbered number (vs ++ us) = numbered number vs ++ numbered (number + vs.length) us
  := by
  induction vs generalizing number with
  | nil => rfl
  | cons v vs ih =>
    rw [List.cons_append, numbered, numbered, ih, List.cons_append, List.length_cons, Nat.add_right_comm,
      ← Nat.add_assoc]

/-- Rows of the same vertices are alike. -/
theorem forall₂_numbered (number number' : Nat) (vs : List Vertex) :
  List.Forall₂ Alike (numbered number vs) (numbered number' vs)
  := by
  induction vs generalizing number number' with
  | nil => exact .nil
  | cons v vs ih => exact .cons (.analyzed number number' v) (ih _ _)

variable {p : Provider σ} {w : Workspace σ} {caller : Token}

/-- A node is expanded into its segments in order. -/
theorem run_next (hp : w.provider.LeavesSearches) (hlive : w.searches.isCancelled caller = false) (n : Node) :
  (w.run (n.next caller)).1 = (n.segments caller w).rows
  := by
  cases n with
  | analyzed number v =>
    rw [next, Workspace.run_bind, Workspace.run_nodes_eq_numbered, segments]
    split
    case isTrue hrole =>
      rw [Vertex.next, if_pos hrole]
      rfl
    case isFalse hrole =>
      obtain ⟨hfound, hnextNode⟩ := Vertex.run_next_undisturbed hp hlive hrole
      rw [hfound, hnextNode, numbered_append, numbered_append, List.length_append, ← Nat.add_assoc]
      rfl
  | organizer number element parents children =>
    rw [next, segments]
    split
    · rfl
    · rw [Workspace.run_isCancelled_bind hlive]
      rfl

/-- The leaf is there for what is analyzed, has a file and is neither a module nor a leaf. -/
theorem signature_segments (caller : Token) (w : Workspace σ) (n : Node) :
  (n.segments caller w).signature.map Node.element = if n.HasSignature then [n.element.asSignature] else []
  := by
  cases n with
  | analyzed number v =>
    rw [segments]
    split
    case isTrue hrole =>
      rw [if_neg fun h => h.2.2.1 hrole]
      rfl
    case isFalse hrole =>
      dsimp only
      rw [Vertex.signature?]
      split
      case isTrue hnone =>
        have hnot : ¬(Node.analyzed number v).HasSignature := by
          rintro ⟨-, hmodule, -, hpath⟩
          rw [element] at hmodule hpath
          rw [hmodule, Bool.or_false, Option.isNone_iff_eq_none] at hnone
          rw [hnone] at hpath
          cases hpath
        rw [if_neg hnot]
        rfl
      case isFalse hsome =>
        rw [Bool.or_eq_true, not_or, Option.isNone_iff_eq_none] at hsome
        rw [if_pos ⟨rfl, Bool.eq_false_iff.mpr hsome.2, hrole, Option.isSome_iff_ne_none.mpr hsome.1⟩]
        rfl
  | organizer number element parents children =>
    have hnot : ¬(Node.organizer number element parents children).HasSignature := by
      rintro ⟨⟨⟩, -⟩
    rw [if_neg hnot, segments]
    split
    · rfl
    · rfl

variable {R : σ → τ → Prop} {p' : Provider τ} {w' : Workspace τ} (hp : p.LeavesSearches) (hp' : p'.LeavesSearches)

include hp hp'

/-- The children do not depend on what is said about usages. -/
theorem children_segments (hagree : p.Agree R (fun q => q.IsResolve ∨ q.IsInside) p') (h : w.Alike R p p' w')
    (n : Node) (caller : Token) :
  (n.segments caller w).signature = (n.segments caller w').signature ∧
    (n.segments caller w).children = (n.segments caller w').children
  := by
  cases n with
  | analyzed number v =>
    rw [segments, segments]
    split
    · exact ⟨rfl, rfl⟩
    · dsimp only
      rw [h.nextNode, h.run_children_eq hp hp' hagree v caller]
      exact ⟨rfl, rfl⟩
  | organizer number element parents children => exact ⟨rfl, rfl⟩

/-- The parents do not depend on what is said about what stands inside of a scope. -/
theorem parents_segments (hagree : p.Agree R (fun q => q.IsResolve ∨ q.IsAround) p')
    (hkeeps : p.Keeps R Question.IsInside) (hkeeps' : p'.Keeps (fun state' state => R state state') Question.IsInside)
    (h : w.Alike R p p' w') (n : Node) (caller : Token) :
  List.Forall₂ Alike (n.segments caller w).parents (n.segments caller w').parents
  := by
  cases n with
  | analyzed number v =>
    rw [segments, segments]
    split
    · exact .nil
    · have hchildren := h.run_children hp hp' (hagree.mono fun _ => .inl) hkeeps hkeeps' v caller
      dsimp only
      rw [hchildren.run_parents_eq hp hp' (hagree.mono fun _ => .inr) v caller]
      exact forall₂_numbered _ _ _
  | organizer number element parents children => exact List.forall₂_same.mpr fun node _ => .refl node

/-- An expansion shows the leaf of the definition, the children and the parents, in this order.  Two providers that
agree on what the children come from show the same leaf and children, and two that agree on what the parents come
from show the same parents, whatever they say besides. -/
theorem next_independent (h : w.Alike R p p' w') {caller : Token} (hlive : w.searches.isCancelled caller = false)
    (n : Node) :
  (w.run (n.next caller)).1 = (n.segments caller w).rows ∧ (w'.run (n.next caller)).1 = (n.segments caller w').rows ∧
    (n.segments caller w).signature.map Node.element = (if n.HasSignature then [n.element.asSignature] else []) ∧
    (p.Agree R (fun q => q.IsResolve ∨ q.IsInside) p' →
      (n.segments caller w).signature = (n.segments caller w').signature ∧
        (n.segments caller w).children = (n.segments caller w').children) ∧
    (p.Agree R (fun q => q.IsResolve ∨ q.IsAround) p' → p.Keeps R Question.IsInside →
      p'.Keeps (fun state' state => R state state') Question.IsInside →
        List.Forall₂ Alike (n.segments caller w).parents (n.segments caller w').parents)
  := by
  have hlive' : w'.searches.isCancelled caller = false := by rwa [← h.searches]
  refine ⟨run_next (h.left ▸ hp) hlive n, run_next (h.right ▸ hp') hlive' n, signature_segments caller w n, ?_, ?_⟩
  · exact fun hagree => children_segments hp hp' hagree h n caller
  · exact fun hagree hkeeps hkeeps' => parents_segments hp hp' hagree hkeeps hkeeps' h n caller

end Node

/-! ### Questions that are refused -/

/-- A provider whose answers are fixed. -/
def Provider.fixed (answers : (q : Question) → Except ProviderError q.Answer) : Provider Unit where
  name := "fixed"
  answer _ q _ := pure (answers q)

/-- A workspace whose provider has fixed answers. -/
def Workspace.fixed (answers : (q : Question) → Except ProviderError q.Answer) : Workspace Unit :=
  { provider := .fixed answers, analysis := (), files := {}, config := {} }

/-- Answers about a function that calls one function and is used in another one. -/
def usedAnswers : (q : Question) → Except ProviderError q.Answer
  | .callSites _ => .ok [⟨"helper", none, .child, some ⟨"/m.py"⟩, .known 2 4, .known 2 10⟩]
  | .usages _ _ => .ok [⟨"main", "n", some ⟨"/n.py"⟩, .known 4 4, .known 4 8⟩]
  | .enclosing _ => .ok ⟨"user", "function", "n", some ⟨"/n.py"⟩, .known 3 4, .known 3 8⟩
  | .script path _ => .error (.unparsable path)
  | .resolve _ _ => .ok none
  | .targets _ | .scopeNames _ => .ok []

/-- The answers where no question about what stands inside a scope has one. -/
def outsideAnswers : (q : Question) → Except ProviderError q.Answer
  | .callSites _ | .targets _ | .scopeNames _ => .error (.failed "no analysis")
  | q => usedAnswers q

/-- The answers where every search for usages is broken off. -/
def insideAnswers : (q : Question) → Except ProviderError q.Answer
  | .usages _ _ | .enclosing _ => .error .cancelled
  | q => usedAnswers q

/-- The function that is used. -/
def usedFunction : Node :=
  .analyzed 0 (.ofDefinition .definition .unknown ⟨"main", "function", "m", some ⟨"/m.py"⟩, .known 1 4, .known 1 8⟩)

theorem Provider.fixed_leavesSearches (answers : (q : Question) → Except ProviderError q.Answer) :
  (fixed answers).LeavesSearches
  :=
  ⟨fun _ _ => rfl, fun _ _ _ _ => rfl⟩

theorem Provider.fixed_agree {answers answers' : (q : Question) → Except ProviderError q.Answer}
    {asks : Question → Prop} (h : ∀ q, asks q → answers q = answers' q) :
  (fixed answers).Agree (fun _ _ => True) asks (fixed answers')
  :=
  ⟨fun _ _ _ _ _ _ => ⟨rfl, trivial⟩, fun _ q _ hq _ _ _ _ => ⟨h q hq, trivial⟩⟩

theorem Workspace.fixed_alike (answers answers' : (q : Question) → Except ProviderError q.Answer) :
  (fixed answers).Alike (fun _ _ => True) (.fixed answers) (.fixed answers') (fixed answers')
  :=
  ⟨rfl, rfl, trivial, rfl, rfl, rfl, rfl, rfl, rfl⟩

/-- The function shows its children if no usages are to be had, and its parents if nothing is known of what stands
inside. -/
theorem Node.next_independent_used :
  (usedFunction.segments (.root 0) (.fixed usedAnswers)).children =
      (usedFunction.segments (.root 0) (.fixed insideAnswers)).children ∧
    List.Forall₂ Alike (usedFunction.segments (.root 0) (.fixed usedAnswers)).parents
      (usedFunction.segments (.root 0) (.fixed outsideAnswers)).parents
  := by
  have hleaves := Provider.fixed_leavesSearches
  have halike := Workspace.fixed_alike usedAnswers
  constructor
  · apply ((next_independent (hleaves _) (hleaves _) (halike insideAnswers) rfl usedFunction).2.2.2.1 _).2
    apply Provider.fixed_agree
    rintro q (hq | hq)
    · cases q <;> first | rfl | cases hq
    · cases q <;> first | rfl | cases hq
  · apply (next_independent (hleaves _) (hleaves _) (halike outsideAnswers) rfl usedFunction).2.2.2.2
    · apply Provider.fixed_agree
      rintro q (hq | hq)
      · cases q <;> first | rfl | cases hq
      · cases q <;> first | rfl | cases hq
    · exact ⟨fun _ _ _ _ _ _ => trivial, fun _ _ _ _ _ _ _ _ => trivial⟩
    · exact ⟨fun _ _ _ _ _ _ => trivial, fun _ _ _ _ _ _ _ _ => trivial⟩

end CallGraph
