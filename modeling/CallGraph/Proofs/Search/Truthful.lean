import CallGraph.Proofs.Search.Ensures
import CallGraph.Proofs.Search.Neighbours
import CallGraph.Proofs.Signals
import CallGraph.Workspace

/-!
# Workspaces that reply truthfully

A provider is only ever given the token of a search, never the handle of a task.  Under this condition no
request touches a handle, and none replaces the provider or changes the configuration in force.

A provider is steady over a file tree if it stays in states in which its answers are fixed, except that a
search that was cancelled may be told anything.  A workspace with such a provider replies as the terms of a
search admit: truthfully as long as nothing below the handle of the search is cancelled.

To every request a setting has a truthful reply, so every search has a `result`, whoever runs it.  What a search
ensures holds of its result, and of what it comes to in a workspace in which nothing below its handle is cancelled.
Results of searches that may fail are `Matched` when their values are related, or both have none.
-/

namespace CallGraph

/-! ### What requests leave alone -/

section

variable {σ : Type}

/-- A provider that, whatever it does to the searches under way, leaves the handles of tasks alone. -/
structure Provider.SparesHandles (p : Provider σ) : Prop where
  pose : ∀ (q : Question) (d : Desk σ), d.searches.Spares (p.pose q d).2.searches
  answer : ∀ (files : FileTree) (q : Question) (token : Option Token) (d : Desk σ),
    d.searches.Spares (p.answer files q token d).2.searches

namespace Workspace

/-- Replies leave the handles alone. -/
theorem perform_spares (w : Workspace σ) (hp : w.provider.SparesHandles) (r : Request) :
  w.searches.Spares (w.perform r).2.searches
  := by
  cases r with
  | pose q => apply hp.pose q ⟨w.analysis, w.searches⟩
  | await q token => apply hp.answer w.files q token ⟨w.analysis, w.searches⟩
  | freshToken => apply w.searches.spares_fresh
  | enter caller => apply w.searches.spares_enter caller
  | leave search => apply w.searches.spares_leave search
  | _ => exact .refl _

@[simp] theorem perform_provider (w : Workspace σ) (r : Request) :
  (w.perform r).2.provider = w.provider
  := by
  cases r <;> rfl

/-- Searches leave the handles alone. -/
theorem run_spares {α : Type} (search : Search α) (w : Workspace σ) (hp : w.provider.SparesHandles) :
  w.searches.Spares (w.run search).2.searches
  := by
  induction search generalizing w with
  | done a => exact .refl _
  | wait r next ih => exact (w.perform_spares hp r).trans (ih _ _ (w.perform_provider r ▸ hp))

/-- Reading the configuration again gives the same values. -/
theorem getConfig_getConfig (w : Workspace σ) :
  w.getConfig.2.getConfig.1 = w.getConfig.1
  := by
  cases hmerged : w.config.merged with
  | some values => simp only [getConfig, UserConfig.get, hmerged]
  | none => simp only [getConfig, UserConfig.get, hmerged]

/-- No request changes the configuration in force. -/
theorem getConfig_perform (w : Workspace σ) (r : Request) :
  (w.perform r).2.getConfig.1 = w.getConfig.1
  := by
  cases r with
  | config => apply w.getConfig_getConfig
  | _ => rfl

/-- No search changes the configuration in force. -/
theorem getConfig_run {α : Type} (search : Search α) (w : Workspace σ) :
  (w.run search).2.getConfig.1 = w.getConfig.1
  := by
  induction search generalizing w with
  | done a => rfl
  | wait r next ih => apply (ih _ _).trans (w.getConfig_perform r)

end Workspace

end

/-! ### Steady providers -/

section

variable {σ : Type} {A : Setting}

/-- A provider that, over a file tree, stays in some states, where its answers are fixed as long as the search
of a question is not cancelled, and which leaves the searches under way alone. -/
structure Provider.IsSteady (p : Provider σ) (files : FileTree)
    (answers : (q : Question) → Except ProviderError q.Answer) (states : σ → Prop) : Prop where
  pose : ∀ (q : Question) (d : Desk σ) (e : ProviderError), states d.state →
    (p.pose q d).1 = .error e → answers q = .error e
  answer : ∀ (q : Question) (token : Option Token) (d : Desk σ), states d.state →
    d.isCancelled token = false → (p.answer files q token d).1 = answers q
  states_pose : ∀ (q : Question) (d : Desk σ), states d.state → states (p.pose q d).2.state
  states_answer : ∀ (q : Question) (token : Option Token) (d : Desk σ), states d.state →
    states (p.answer files q token d).2.state
  searches_pose : ∀ (q : Question) (d : Desk σ), (p.pose q d).2.searches = d.searches
  searches_answer : ∀ (files' : FileTree) (q : Question) (token : Option Token) (d : Desk σ),
    (p.answer files' q token d).2.searches = d.searches

/-- A steady provider does not reach the handles of tasks. -/
theorem Provider.IsSteady.sparesHandles {p : Provider σ} {files : FileTree}
    {answers : (q : Question) → Except ProviderError q.Answer} {states : σ → Prop}
    (h : p.IsSteady files answers states) :
  p.SparesHandles
  where
  pose q d := (h.searches_pose q d).symm ▸ .refl d.searches
  answer files q token d := (h.searches_answer files q token d).symm ▸ .refl d.searches

namespace Workspace

/-- A workspace in which searches find the setting they depend on. -/
structure Fits (w : Workspace σ) (A : Setting) : Prop where
  steady : ∃ states, w.provider.IsSteady w.files A.answers states ∧ states w.analysis
  files : w.files = A.files
  searchPath : w.searchPath = A.searchPath
  mode : w.getConfig.1.experimentalMode = A.experimental

variable {w : Workspace σ}

/-- Which searches are under way does not matter. -/
theorem Fits.withSearches (h : w.Fits A) (searches : Searches) :
  Fits { w with searches } A
  :=
  ⟨h.steady, h.files, h.searchPath, h.mode⟩

/-- The provider does not reach the handles of tasks. -/
theorem Fits.sparesHandles (h : w.Fits A) :
  w.provider.SparesHandles
  := by
  obtain ⟨states, hsteady, -⟩ := h.steady
  apply hsteady.sparesHandles

/-- Reading the configuration changes nothing for searches. -/
theorem Fits.getConfig (h : w.Fits A) :
  w.getConfig.2.Fits A
  where
  steady := h.steady
  files := h.files
  searchPath := h.searchPath
  mode := (congrArg ConfigValues.experimentalMode w.getConfig_getConfig).trans h.mode

/-- Requests change nothing that searches depend on. -/
theorem Fits.perform (h : w.Fits A) (r : Request) :
  (w.perform r).2.Fits A
  := by
  obtain ⟨states, hsteady, hstates⟩ := h.steady
  cases r with
  | config => apply h.getConfig
  | pose q =>
      refine ⟨⟨states, hsteady, ?_⟩, h.files, h.searchPath, h.mode⟩
      apply hsteady.states_pose q ⟨w.analysis, w.searches⟩ hstates
  | await q token =>
      refine ⟨⟨states, hsteady, ?_⟩, h.files, h.searchPath, h.mode⟩
      apply hsteady.states_answer q token ⟨w.analysis, w.searches⟩ hstates
  | _ => exact ⟨h.steady, h.files, h.searchPath, h.mode⟩

/-- A request cancels nothing. -/
theorem Fits.isCancelled_perform (h : w.Fits A) (r : Request) (u : Token) :
  (w.perform r).2.searches.isCancelled u = w.searches.isCancelled u
  := by
  obtain ⟨states, hsteady, -⟩ := h.steady
  cases r with
  | pose q =>
      apply congrArg (Searches.isCancelled · u) (hsteady.searches_pose q ⟨w.analysis, w.searches⟩)
  | await q token =>
      apply congrArg (Searches.isCancelled · u)
        (hsteady.searches_answer w.files q token ⟨w.analysis, w.searches⟩)
  | freshToken => apply w.searches.signals.isCancelled_fresh u
  | enter caller =>
      have hcancelled : (w.searches.enter caller).2.signals.cancelled = w.searches.signals.cancelled := rfl
      apply Signals.isCancelled_congr hcancelled u
  | _ => rfl

/-- The searches under way stay below handles. -/
theorem Fits.rooted_perform (h : w.Fits A) {t : Terms} (hissued : w.searches.Issued t.handle)
    {r : Request} (hasks : t.Asks r) (hrooted : w.searches.Rooted) :
  (w.perform r).2.searches.Rooted
  := by
  obtain ⟨states, hsteady, -⟩ := h.steady
  have hmono : ∀ {u : Token}, (∃ v, w.searches.Issued v ∧ v.Covers u) →
      ∃ v, (w.perform r).2.searches.Issued v ∧ v.Covers u := by
    rintro u ⟨v, hv, hcovers⟩
    exact ⟨v, hv.mono (w.perform_spares h.sparesHandles r).next, hcovers⟩
  constructor
  · intro u hu
    rw [h.isCancelled_perform] at hu
    apply hmono (hrooted.cancelled u hu)
  · intro u hu
    cases r with
    | pose q =>
        have hlive := congrArg Searches.live (hsteady.searches_pose q ⟨w.analysis, w.searches⟩)
        apply hmono (hrooted.live u (hlive ▸ hu))
    | await q token =>
        have hlive := congrArg Searches.live
          (hsteady.searches_answer w.files q token ⟨w.analysis, w.searches⟩)
        apply hmono (hrooted.live u (hlive ▸ hu))
    | enter caller =>
        rcases List.mem_append.mp hu with hu | hu
        · apply hmono (hrooted.live u hu)
        · cases List.mem_singleton.mp hu
          exact hmono ⟨t.handle, hissued, .inr hasks⟩
    | leave search => apply hmono (hrooted.live u (List.mem_filter.mp hu).1)
    | _ => apply hmono (hrooted.live u hu)

/-- As long as nothing below the handle of a search is cancelled the reply is a truthful one. -/
theorem Fits.admits (h : w.Fits A) {t : Terms} {r : Request} (hasks : t.Asks r)
    (hclean : t.honest → ∀ u, t.handle.Covers u → w.searches.isCancelled u = false) :
  t.Admits A r (w.perform r).1
  := by
  obtain ⟨states, hsteady, hstates⟩ := h.steady
  cases r with
  | pose q => exact fun _ e he => hsteady.pose q ⟨w.analysis, w.searches⟩ e hstates he
  | await q token =>
      intro hhonest hcovers
      apply hsteady.answer q token _ hstates
      cases token with
      | none => rfl
      | some u => apply hclean hhonest u (hcovers u rfl)
  | isCancelled u => exact fun hhonest hcovers => hclean hhonest u hcovers
  | enter caller => exact .inr hasks
  | searchPath => exact fun _ => h.searchPath
  | config => exact fun _ => h.mode
  | files => exact fun _ => h.files
  | _ => trivial

end Workspace

end

/-! ### The results of searches -/

variable {σ α β : Type} {A : Setting} {t : Terms}

/-- The truthful reply to a request. -/
def Setting.reply (A : Setting) : (r : Request) → r.Reply
  | .pose _ => .ok ()
  | .await q _ => A.answers q
  | .isCancelled _ => false
  | .freshToken => .root 0
  | .enter caller => caller
  | .leave _ => ()
  | .searchedFiles => []
  | .widen _ => ()
  | .searchPath => A.searchPath
  | .config => { experimentalMode := A.experimental }
  | .files => A.files
  | .log _ => ()
  | .freshNode => 0

/-- What a search comes to when it is replied to truthfully. -/
def Search.result (A : Setting) : Search α → α
  | .done a => a
  | .wait r next => (next (A.reply r)).result A

/-- The truthful reply may be had. -/
theorem Setting.admits_reply {r : Request} (hasks : t.Asks r) :
  t.Admits A r (A.reply r)
  := by
  cases r with
  | pose q => exact fun _ e he => by cases he
  | enter caller => exact hasks
  | await q token => exact fun _ _ => rfl
  | isCancelled u => exact fun _ _ => rfl
  | searchPath => exact fun _ => rfl
  | config => exact fun _ => rfl
  | files => exact fun _ => rfl
  | _ => trivial

namespace Search

/-- What a search ensures holds of its result. -/
theorem Ensures.result {s : Search α} {P : α → Prop} (h : s.Ensures A t P) :
  P (s.result A)
  := by
  induction s with
  | done a => exact h
  | wait r next ih => exact ih _ (h.2 _ (Setting.admits_reply h.1))

/-- One search after the other. -/
theorem result_bind (s : Search α) (f : α → Search β) :
  (s >>= f).result A = (f (s.result A)).result A
  := by
  induction s with
  | done a => rfl
  | wait r next ih => exact ih _

end Search

namespace Workspace

variable {w : Workspace σ}

/-- What a search ensures holds of what it comes to in a workspace in which nothing below its handle is cancelled. -/
theorem Fits.run_ensures {s : Search α} {P : α → Prop} (h : w.Fits A) (hs : s.Ensures A t P)
    (hclean : t.honest → ∀ u, t.handle.Covers u → w.searches.isCancelled u = false) :
  P (w.run s).1
  := by
  induction s generalizing w with
  | done a => exact hs
  | wait r next ih =>
    refine ih _ (h.perform r) (hs.2 _ (h.admits hs.1 hclean)) fun hhonest u hcovers => ?_
    exact (h.isCancelled_perform r u).trans (hclean hhonest u hcovers)

/-- A workspace that fits a setting goes on to do so. -/
theorem Fits.run (h : w.Fits A) (s : Search α) :
  (w.run s).2.Fits A
  := by
  induction s generalizing w with
  | done a => exact h
  | wait r next ih => exact ih _ (h.perform r)

end Workspace

/-- The neighbours of a vertex are the result of the search for them. -/
theorem Setting.neighbours_eq (A : Setting) (v : Vertex) :
  A.neighbours v = (v.next (.root 0)).result A
  :=
  ((A.ensures_neighbours v ⟨.root 0, true⟩).result rfl).symm

/-! ### Results that match -/

/-- Two results: values that are related, or errors which both say that a search was cancelled or both do not. -/
inductive Matched (R : α → β → Prop) : Except ProviderError α → Except ProviderError β → Prop where
  | ok {a : α} {b : β} (related : R a b) : Matched R (.ok a) (.ok b)
  | error {e e' : ProviderError} (cancelled : e.isCancelled = e'.isCancelled) : Matched R (.error e) (.error e')

namespace Finding

variable {γ δ : Type} {R : α → β → Prop} {S : γ → δ → Prop}

/-- Two searches that may fail have results that match. -/
def Match (A : Setting) (R : α → β → Prop) (s : Finding α) (s' : Finding β) : Prop :=
  Matched R (s.run.result A) (s'.run.result A)

theorem Match.pure {a : α} {b : β} (h : R a b) :
  Match A R (Pure.pure a) (Pure.pure b)
  :=
  .ok h

theorem Match.bind {s : Finding α} {s' : Finding β} {f : α → Finding γ} {f' : β → Finding δ} (h : Match A R s s')
    (hf : ∀ a b, R a b → Match A S (f a) (f' b)) :
  Match A S (s >>= f) (s' >>= f')
  := by
  unfold Match at h ⊢
  rw [ExceptT.run_bind, ExceptT.run_bind, Search.result_bind, Search.result_bind]
  generalize s.run.result A = r, s'.run.result A = r' at h ⊢
  cases h with
  | ok related => exact hf _ _ related
  | error cancelled => exact .error cancelled

theorem result_lift (s : Search α) :
  (ExceptT.lift s : Finding α).run.result A = .ok (s.result A)
  :=
  Search.result_bind s _

/-- Searches that do not fail. -/
theorem Match.lift {s : Search α} {s' : Search β} (h : R (s.result A) (s'.result A)) :
  Match A R (ExceptT.lift s) (ExceptT.lift s')
  := by
  unfold Match
  rw [result_lift, result_lift]
  exact .ok h

theorem Match.ask (q q' : Question) {R : q.Answer → q'.Answer → Prop} (h : Matched R (A.answers q) (A.answers q'))
    (token token' : Option Token) :
  Match A R (Finding.ask q token) (Finding.ask q' token')
  :=
  h

theorem Match.checkpoint (token token' : Token) :
  Match A (fun _ _ => True) (Finding.checkpoint token) (Finding.checkpoint token')
  :=
  .ok trivial

/-- Searches that write to the log, or report an error, before they go on. -/
theorem Match.andThen {s s' : Search Unit} {f : Finding α} {f' : Finding β} (h : Match A R f f') :
  Match A R (do ExceptT.lift s; f) (do ExceptT.lift s'; f')
  := by
  have hlift : Match A (fun _ _ => True) (ExceptT.lift s) (ExceptT.lift s') := .lift trivial
  exact hlift.bind fun _ _ _ => h

theorem Match.contained {r : Except ProviderError α} {r' : Except ProviderError β} (h : Matched R r r') {a : α} {b : β}
    (hdefault : R a b) (context context' : String) :
  Match A R (Finding.contained r a context) (Finding.contained r' b context')
  := by
  cases h with
  | ok related => exact .ok related
  | @error e e' cancelled =>
    cases e with
    | cancelled =>
      cases e' with
      | cancelled => exact .error rfl
      | _ => cases cancelled
    | _ =>
      cases e' with
      | cancelled => cases cancelled
      | _ => exact .andThen (.pure hdefault)

theorem Match.askContained (q q' : Question) {R : q.Answer → q'.Answer → Prop}
    (h : Matched R (A.answers q) (A.answers q')) {a : q.Answer} {b : q'.Answer} (hdefault : R a b)
    (token token' : Token) (context context' : String) :
  Match A R (Finding.askContained q token a context) (Finding.askContained q' token' b context')
  := by
  have hasked : Match A (Matched R) (ExceptT.lift (Search.ask q (some token)))
      (ExceptT.lift (Search.ask q' (some token'))) := .lift h
  exact hasked.bind fun r r' hr => .contained hr hdefault context context'

end Finding

end CallGraph
