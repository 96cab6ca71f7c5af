import CallGraph.Proofs.Files.Sound
import CallGraph.Proofs.Search.Answered
import CallGraph.Proofs.Search.Consulting
import CallGraph.Proofs.Source.Editing
import CallGraph.Search.Roots
import CallGraph.Source.Grammar

/-!
# Browsing files that do not change

All nodes that can be met from the roots, in any workspaces over the same files, are sound.  So expanding any of
them asks nothing that is not answered, and all definitions handed out on the way are found again in their files.
-/

namespace CallGraph

open Source

variable {files : FileTree}

/-! ### What is answered -/

/-- The answers that come with a reply, a refusal included. -/
def Request.answers : (r : Request) → r.Reply → List ((q : Question) × Except ProviderError q.Answer)
  | .pose q, .error e => [⟨q, .error e⟩]
  | .await q _, reply => [⟨q, reply⟩]
  | _, _ => []

/-- The answers that the questions of a search get when it is run, in order. -/
def Workspace.answers {σ α : Type} : Search α → Workspace σ →
    List ((q : Question) × Except ProviderError q.Answer)
  | .done _, _ => []
  | .wait r next, w => r.answers (w.perform r).1 ++ answers (next (w.perform r).1) (w.perform r).2

/-- The definitions that an answer hands out to go on from. -/
def Question.handedOut : (q : Question) → q.Answer → List Definition
  | .resolve _ _, found => found.toList
  | .script _ _, d => [d]
  | .targets _, found => found
  | .enclosing _, d => [d]
  | _, _ => []

section Parsed

variable [Parser]

/-! ### Workspaces -/

/-- A workspace over files whose provider answers from an index, out of the experimental mode. -/
structure Workspace.Browses (w : Workspace Index) (files : FileTree) : Prop extends w.Consults files where
  mode : w.getConfig.1.experimentalMode = false

namespace Workspace.Browses

variable {w : Workspace Index} (h : w.Browses files)

include h

theorem perform (r : Request) :
  (w.perform r).2.Browses files
  :=
  ⟨h.toConsults.perform r, w.getConfig_perform r ▸ h.mode⟩

theorem run {α : Type} (s : Search α) :
  (w.run s).2.Browses files
  := by
  induction s generalizing w with
  | done a => exact h
  | wait r next ih => exact ih _ (h.perform r)

variable (hpy : ReadsPython files)

include hpy

/-- What is asked for is granted. -/
theorem grants (Live : Token → Prop) (hlive : ∀ t, w.searches.isCancelled t = false → Live t) (r : Request) :
  r.Grants files Live (w.perform r).1
  := by
  cases r with
  | await q token =>
    rw [h.perform_await]
    split
    · exact nofun
    · exact fun a ha => h.analysis.serves hpy ha
  | isCancelled t => exact hlive t
  | config => exact h.mode
  | _ => trivial

/-- A fit request is answered. -/
theorem exists_of_isFit {Live : Token → Prop} (hlive : ∀ t, Live t → w.searches.isCancelled t = false)
    {r : Request} (hr : r.IsFit files Live) :
  ∀ x ∈ r.answers (w.perform r).1, ∃ a, x.2 = .ok a
  := by
  cases r with
  | pose q =>
    rw [h.perform_pose]
    exact List.forall_mem_nil _
  | await q token =>
    obtain ⟨hq, htoken⟩ := hr
    have hnot : Provider.Desk.isCancelled ⟨w.analysis, w.searches⟩ token = false := by
      cases token with
      | none => rfl
      | some t => exact hlive t (htoken t rfl)
    rw [h.perform_await, hnot]
    exact List.forall_mem_singleton.mpr (h.analysis.answers hpy hq)
  | _ => exact List.forall_mem_nil _

/-- The result of a search that keeps to fit requests has the property. -/
theorem run_keeps {α : Type} (Live : Token → Prop) {P : α → Prop} {s : Search α} (hs : s.Keeps files Live P)
    (hlive : ∀ t, w.searches.isCancelled t = false → Live t) :
  P (w.run s).1
  := by
  induction s generalizing w with
  | done a => exact hs
  | wait r next ih =>
    apply ih _ (h.perform r) (hs.2 _ (h.grants hpy Live hlive r))
    intro t ht
    exact hlive t ((h.isCancelled_perform r t).symm.trans ht)

/-- All questions of a search that keeps to fit requests are answered. -/
theorem answers_keeps {α : Type} {Live : Token → Prop} {P : α → Prop} {s : Search α} (hs : s.Keeps files Live P)
    (hlive : ∀ t, w.searches.isCancelled t = false ↔ Live t) :
  ∀ x ∈ w.answers s, ∃ a, x.2 = .ok a
  := by
  induction s generalizing w with
  | done a => exact List.forall_mem_nil _
  | wait r next ih =>
    rw [Workspace.answers, List.forall_mem_append]
    refine ⟨h.exists_of_isFit hpy (fun t => (hlive t).mpr) hs.1, ?_⟩
    apply ih _ (h.perform r) (hs.2 _ (h.grants hpy Live (fun t => (hlive t).mp) r))
    intro t
    rw [h.isCancelled_perform]
    exact hlive t

end Workspace.Browses

/-! ### Nodes -/

/-- The nodes that are met from the roots on, whatever workspaces over the files they are found in. -/
inductive Node.IsMet (files : FileTree) : Node → Prop where
  | module {w : Workspace Index} (hw : w.Browses files) (searchPath : List Path) (name : String) {n : Node}
      (hn : (w.run (Search.moduleNode searchPath name)).1 = .ok n) : IsMet files n
  | script {w : Workspace Index} (hw : w.Browses files) (searchPath : List Path) (path : Path) {n : Node}
      (hn : (w.run (Search.scriptNode searchPath path)).1 = .ok n) : IsMet files n
  | next {w : Workspace Index} (hw : w.Browses files) (caller : Token) {n m : Node} (hn : IsMet files n)
      (hm : m ∈ (w.run (n.next caller)).1) : IsMet files m

section Roots

open Search

variable {Live : Token → Prop}

theorem keeps_moduleNode (searchPath : List Path) (name : String) :
  (moduleNode searchPath name).Keeps files Live fun r => ∀ n, r = .ok n → n.IsSound files
  := by
  apply (Finding.keeps_moduleVertex searchPath name).bind
  intro result hresult
  cases result with
  | error e => exact nofun
  | ok v =>
    apply (keeps_request .freshNode trivial).bind
    rintro number - _ ⟨⟩
    exact .analyzed (hresult v rfl)

theorem keeps_scriptChildren (path : Path) {d : Definition} (hd : d.IsFound files) :
  (scriptChildren path d).Keeps files (fun _ => True) (Finding.AllSound files)
  := by
  apply (keeps_request .freshToken trivial).bind
  intro token _
  have hvertices : (Finding.callSiteVertices d token).Keeps files (fun _ => True) (Finding.AllSound files) :=
    Finding.keeps_callSiteVertices hd trivial
  apply Search.Keeps.bind hvertices
  intro found hfound
  apply Search.Keeps.bind (Finding.keeps_contained hfound Finding.AllSound.nil _)
  intro result hresult
  cases result with
  | ok vs => exact hresult vs rfl
  | error e => exact Finding.AllSound.nil

/-- What follows once the definition of a script is known. -/
theorem keeps_scriptRest (path : Path) {d : Definition} (hd : d.IsFound files) :
  Search.Keeps files (fun _ => True) (fun r : Except ResolutionError Node => ∀ n, r = .ok n → n.IsSound files)
    (do
      let children ← nodes (← scriptChildren path d)
      if let some file := d.path then request (.widen file)
      pure (.ok (← organizer (scriptElement (← request .files) path d) [] children)))
  := by
  apply (keeps_scriptChildren path hd).bind
  intro vs hvs
  apply (keeps_nodes hvs).bind
  intro children hchildren
  have hrest : Search.Keeps files (fun _ => True)
      (fun r : Except ResolutionError Node => ∀ n, r = .ok n → n.IsSound files)
      (do pure (.ok (← organizer (scriptElement (← request .files) path d) [] children))) := by
    apply (keeps_request .files trivial).bind
    intro tree _
    apply (keeps_request .freshNode trivial).bind
    rintro number - _ ⟨⟩
    exact .organizer (List.forall_mem_nil _) hchildren
  dsimp only
  split
  · rename_i file _
    exact (keeps_request (.widen file) trivial).bind fun _ _ => hrest
  · exact hrest

end Roots

theorem Node.IsMet.isSound (hpy : ReadsPython files) {n : Node} (h : n.IsMet files) :
  n.IsSound files
  := by
  induction h with
  | module hw searchPath name hn =>
    exact hw.run_keeps hpy (fun _ => True) (keeps_moduleNode searchPath name) (fun _ _ => trivial) _ hn
  | @script w hw searchPath path n hn =>
    have hserves : ∀ d, (w.run (Search.ask (.script path searchPath) none)).1 = .ok d → d.IsFound files := by
      rw [Search.ask, Workspace.run_bind, Workspace.run_request, hw.perform_pose]
      exact hw.grants hpy (fun _ => True) (fun _ _ => trivial) (.await (.script path searchPath) none)
    have hbrowses := hw.run (Search.ask (.script path searchPath) none)
    rw [Search.scriptNode, Workspace.run_bind] at hn
    generalize w.run (Search.ask (.script path searchPath) none) = reply at hn hserves hbrowses
    obtain ⟨r, w'⟩ := reply
    cases r with
    | error e => cases hn
    | ok d =>
      exact hbrowses.run_keeps hpy _ (keeps_scriptRest path (hserves d rfl)) (fun _ _ => trivial) _ hn
  | next hw caller hn hm ih =>
    exact hw.run_keeps hpy (fun _ => True) (Search.keeps_next ih caller) (fun _ _ => trivial) _ hm

/-! ### What is handed out -/

theorem Question.Serves.handedOut {q : Question} {a : q.Answer} (h : q.Serves files a) :
  AllFound files (q.handedOut a)
  := by
  cases q with
  | resolve name _ => exact fun d hd => h d (Option.mem_toList.mp hd)
  | script path _ => exact List.forall_mem_singleton.mpr h
  | targets site => exact h
  | enclosing usage => exact List.forall_mem_singleton.mpr h
  | _ => exact List.forall_mem_nil _

/-- A definition that is found is found in its file as the index has it. -/
theorem Definition.IsFound.load {d : Definition} (h : d.IsFound files) {p : Path} (hp : d.path = some p)
    {x : Index} (hx : x.Reached files) :
  ∃ o scope, (Index.load files p x).1 = .ok o ∧ o.scopeOf d = some scope
  := by
  obtain ⟨o, ho, scope, hscope⟩ := h p hp
  obtain ⟨o', ho', hscopes, _⟩ := outlineNow_searchPath ho x.searchPath
  have hload := (mirrors_load (.refl p) (· = files) rfl (by rintro _ rfl; exact .refl _) x
    ⟨hx.isCurrent, rfl⟩).1
  rw [ho'] at hload
  generalize (Index.load files p x).1 = r at hload
  cases hload with
  | ok halike =>
    refine ⟨_, scope, rfl, ?_⟩
    rw [← hscope, ← hscopes]
    exact (halike.scopeOf (.refl d)).symm

/-- Over files of which those of Python all hold texts, expanding a node that was met gets answers to all its questions,
and every definition handed out by any answer is found again in its file, whatever was asked in between. -/
theorem answers_ok_of_isMet (hpy : ReadsPython files) :
  (∀ (n : Node), n.IsMet files → ∀ (w : Workspace Index) (caller : Token), w.Browses files →
    ∀ x ∈ w.answers (n.next caller), ∃ a, x.2 = .ok a) ∧
  ∀ (x : Index), x.Reached files → ∀ (q : Question) (a : q.Answer), (Index.answer files q x).1 = .ok a →
    ∀ d ∈ q.handedOut a, ∀ p, d.path = some p → ∀ (y : Index), y.Reached files →
      ∃ o scope, (Index.load files p y).1 = .ok o ∧ o.scopeOf d = some scope
  := by
  constructor
  · intro n hn w caller hw
    exact hw.answers_keeps hpy (Search.keeps_next (hn.isSound hpy) caller) fun _ => Iff.rfl
  · intro x hx q a ha d hd p hp y hy
    exact ((hx.serves hpy ha).handedOut d hd).load hp hy

end Parsed

/-! ### A workspace over a module -/

section Drafted

open scoped Grammar

/-- A workspace over a module with a function in it. -/
def draftedWorkspace : Workspace Index :=
  { provider := Index.provider, analysis := {}, files := drafted, config := {}, searchPath := [⟨"/tmp/w"⟩] }

/-- What is asked while the rows of a node are expanded. -/
def askedFor : Except ResolutionError Node → List (List String)
  | .ok n =>
    (draftedWorkspace.run (n.next (.root 0))).1.map fun row =>
      (draftedWorkspace.answers (row.next (.root 0))).map (·.1.key)
  | .error _ => []

/-- The file of a definition that is found. -/
def fileFound : Except ProviderError (Option Definition) → Option String
  | .ok found => found.bind fun d => d.path.map Path.spelling
  | .error _ => none

/-- The module is met, and so is the function; all that is asked when the function is expanded is answered. -/
theorem answers_ok_of_isMet_drafted :
  ReadsPython drafted ∧
  (∃ root row, (draftedWorkspace.run (Search.moduleNode [⟨"/tmp/w"⟩] "m")).1 = .ok root ∧
    row ∈ (draftedWorkspace.run (root.next (.root 0))).1 ∧
    (draftedWorkspace.answers (row.next (.root 0))).map (·.1.key) = ["call_sites:f", "usages:f", "enclosing:f"] ∧
    ∀ x ∈ draftedWorkspace.answers (row.next (.root 0)), ∃ a, x.2 = .ok a) ∧
  ∃ d, (Index.answer drafted draftQuestion {}).1 = .ok (some d) ∧ d.path = some ⟨"/tmp/w/m.py"⟩ ∧
    ∃ o scope, (Index.load drafted ⟨"/tmp/w/m.py"⟩ {}).1 = .ok o ∧ o.scopeOf d = some scope
  := by
  have hpy : ReadsPython drafted := by
    apply readsPython_of_entries (FileTree.isSound_of_entries (by decide) rfl (List.forall_mem_nil _))
    intro octets modified hmem
    simp only [drafted, List.map_cons, List.map_nil, List.mem_cons, reduceCtorEq, FileTree.Entry.file.injEq,
      List.not_mem_nil, or_false, false_or] at hmem
    rw [hmem.1]
    decide +kernel
  obtain ⟨hnodes, hdefinitions⟩ := answers_ok_of_isMet hpy
  refine ⟨hpy, ?_, ?_⟩
  · have hbrowses : draftedWorkspace.Browses drafted := ⟨⟨.empty, rfl, rfl⟩, rfl⟩
    have hasked : askedFor (draftedWorkspace.run (Search.moduleNode [⟨"/tmp/w"⟩] "m")).1 =
        [["call_sites:f", "usages:f", "enclosing:f"]] := by
      decide +kernel
    cases hroot : (draftedWorkspace.run (Search.moduleNode [⟨"/tmp/w"⟩] "m")).1 with
    | error e =>
      rw [hroot] at hasked
      cases hasked
    | ok root =>
      rw [hroot, askedFor] at hasked
      obtain ⟨row, rows, hrows, hkeys, -⟩ := List.map_eq_cons_iff.mp hasked
      have hrow : row ∈ (draftedWorkspace.run (root.next (.root 0))).1 := hrows ▸ List.mem_cons_self
      refine ⟨root, row, rfl, hrow, hkeys, ?_⟩
      exact hnodes row (.next hbrowses (.root 0) (.module hbrowses _ _ hroot) hrow) draftedWorkspace (.root 0) hbrowses
  · have hfile : fileFound (Index.answer drafted draftQuestion {}).1 = some "/tmp/w/m.py" := by decide +kernel
    cases hfound : (Index.answer drafted draftQuestion {}).1 with
    | error e =>
      rw [hfound] at hfile
      cases hfile
    | ok found =>
      rw [hfound] at hfile
      obtain ⟨d, rfl, hspelling⟩ := Option.bind_eq_some_iff.mp hfile
      obtain ⟨⟨spelling⟩, hp, rfl⟩ := Option.map_eq_some_iff.mp hspelling
      refine ⟨d, rfl, hp, ?_⟩
      exact hdefinitions {} .empty draftQuestion _ hfound d (List.mem_singleton_self d) _ hp {} .empty

end Drafted

end CallGraph
