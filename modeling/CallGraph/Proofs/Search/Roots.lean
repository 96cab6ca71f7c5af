import CallGraph.Proofs.Search.Truthful
import CallGraph.Search.Roots

/-!
# Resolving what is tracked

Let the provider answer as a fixed function.  Then a module name and a script have outcomes, an element or an
error, that depend on nothing but the search path and, for a script, on where its file is: whoever resolves
them at any time comes to the same.
-/

namespace CallGraph

variable {σ : Type} {answers : (q : Question) → Except ProviderError q.Answer}

/-! ### Outcomes -/

/-- What a module name is resolved into. -/
def moduleOutcome (answers : (q : Question) → Except ProviderError q.Answer) (searchPath : List Path)
    (name : String) : Except ResolutionError Element :=
  match answers (.resolve name searchPath) with
  | .error e => .error (.refused name e)
  | .ok none => .error (.unknownModule name)
  | .ok (some d) => .ok (d.toElement .definition ⟨d.path, .known 1 0, .unknown⟩)

/-- The definition of a script, or the reason why it has none. -/
def scriptAnswer (answers : (q : Question) → Except ProviderError q.Answer) (searchPath : List Path)
    (path : Path) : Except String Definition :=
  (answers (.script path searchPath)).mapError Search.scriptReason

/-- What a script is resolved into. -/
def scriptOutcome (answers : (q : Question) → Except ProviderError q.Answer) (searchPath : List Path)
    (files : FileTree) (path : Path) : Except ResolutionError Element :=
  match scriptAnswer answers searchPath path with
  | .error reason => .error (.unreadableScript path reason)
  | .ok d => .ok (Search.scriptElement files path d)

namespace Workspace

variable {w : Workspace σ}

/-! ### Runs of searches -/

/-- One search after the other. -/
theorem run_bind {α β : Type} (s : Search α) (f : α → Search β) (w : Workspace σ) :
  w.run (s >>= f) = (w.run s).2.run (f (w.run s).1)
  := by
  induction s generalizing w with
  | done a => rfl
  | wait r next ih => apply ih _ _

/-- No request changes the files. -/
theorem files_perform (w : Workspace σ) (r : Request) :
  (w.perform r).2.files = w.files
  := by
  cases r <;> rfl

/-- No search changes the files. -/
theorem files_run {α : Type} (s : Search α) (w : Workspace σ) :
  (w.run s).2.files = w.files
  := by
  induction s generalizing w with
  | done a => rfl
  | wait r next ih => apply (ih _ _).trans (w.files_perform r)

/-- Whether the provider answers as a fixed function, whatever the files. -/
def Answers (w : Workspace σ) (answers : (q : Question) → Except ProviderError q.Answer) : Prop :=
  ∃ states : σ → Prop, (∀ files, w.provider.IsSteady files answers states) ∧ states w.analysis

/-- A provider goes on to answer as it does. -/
theorem Answers.perform (h : w.Answers answers) (r : Request) :
  (w.perform r).2.Answers answers
  := by
  obtain ⟨states, hsteady, hstates⟩ := h
  cases r with
  | pose q => exact ⟨states, hsteady, (hsteady w.files).states_pose q _ hstates⟩
  | await q token => exact ⟨states, hsteady, (hsteady w.files).states_answer q token _ hstates⟩
  | _ => exact ⟨states, hsteady, hstates⟩

/-- A provider goes on to answer as it does after a search. -/
theorem Answers.run {α : Type} (s : Search α) {w : Workspace σ} (h : w.Answers answers) :
  (w.run s).2.Answers answers
  := by
  induction s generalizing w with
  | done a => apply h
  | wait r next ih => apply ih _ (h.perform r)

/-- Whoever asks outside of any search gets the answer. -/
theorem Answers.run_ask (h : w.Answers answers) (q : Question) :
  (w.run (Search.ask q none)).1 = answers q
  := by
  obtain ⟨states, hsteady, hstates⟩ := h
  have hposed := (hsteady w.files).states_pose q ⟨w.analysis, w.searches⟩ hstates
  rw [Search.ask, run_bind]
  cases hreply : (w.run (Search.request (.pose q))).1 with
  | error e => apply ((hsteady w.files).pose q ⟨w.analysis, w.searches⟩ e hstates hreply).symm
  | ok _ => apply (hsteady w.files).answer q none _ hposed rfl

/-! ### Runs for tracked entries -/

/-- What whoever asks outside of any search would get now. -/
def answerNow (w : Workspace σ) (q : Question) : Except ProviderError q.Answer :=
  (w.run (Search.ask q none)).1

/-- A module name is resolved into its outcome for the answer that is got now. -/
theorem run_moduleNode (w : Workspace σ) (searchPath : List Path) (name : String) :
  (w.run (Search.moduleNode searchPath name)).1.map Node.element = moduleOutcome w.answerNow searchPath name
  := by
  rw [Search.moduleNode, Search.moduleVertex, run_bind, run_bind, moduleOutcome, answerNow]
  cases (w.run (Search.ask (.resolve name searchPath) none)).1 with
  | error e => rfl
  | ok d =>
      cases d with
      | none => rfl
      | some d =>
          obtain ⟨name, kind, module, path, start, stop⟩ := d
          cases path <;> rfl

/-- A script is resolved into its outcome for the answer that is got now. -/
theorem run_scriptNode (w : Workspace σ) (searchPath : List Path) (path : Path) :
  (w.run (Search.scriptNode searchPath path)).1.map Node.element =
    scriptOutcome w.answerNow searchPath w.files path
  := by
  rw [Search.scriptNode, run_bind, scriptOutcome, scriptAnswer, answerNow]
  cases (w.run (Search.ask (.script path searchPath) none)).1 with
  | error e => rfl
  | ok d =>
      have hfiles : ∀ w : Workspace σ, ((w.run (Search.scriptChildren path d)).2.run
          (Search.nodes (w.run (Search.scriptChildren path d)).1)).2.files = w.files := by
        intro w
        rw [files_run, files_run]
      rw [Except.mapError, run_bind, run_bind]
      rw [← files_run (Search.ask (.script path searchPath) none) w, ← hfiles]
      generalize Workspace.run (Search.nodes _) _ = rest
      obtain ⟨name, kind, module, file, start, stop⟩ := d
      cases file <;> rfl

/-- A module name is resolved into its outcome. -/
theorem Answers.run_moduleNode (h : w.Answers answers) (searchPath : List Path) (name : String) :
  (w.run (Search.moduleNode searchPath name)).1.map Node.element = moduleOutcome answers searchPath name
  := by
  rw [Workspace.run_moduleNode, moduleOutcome, moduleOutcome, answerNow, h.run_ask]

/-- A script is resolved into its outcome. -/
theorem Answers.run_scriptNode (h : w.Answers answers) (searchPath : List Path) (path : Path) :
  (w.run (Search.scriptNode searchPath path)).1.map Node.element =
    scriptOutcome answers searchPath w.files path
  := by
  rw [Workspace.run_scriptNode, scriptOutcome, scriptOutcome, scriptAnswer, scriptAnswer, answerNow, h.run_ask]

end Workspace

end CallGraph
