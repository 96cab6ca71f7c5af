import CallGraph.Proofs.Search.Consulting
import CallGraph.Proofs.Search.Indexed
import CallGraph.Proofs.SearchScope
import CallGraph.Proofs.Source.Editing

/-!
# Searches in step

Two searches are run in two workspaces of one `Scene`, over the same files, on the same search path and in the
same mode, each with a provider that answers from an index of its own.  They are in step when they have related
results, leave workspaces of the scene behind, and widen the files searched for usages by the same files.  The
relation has a rule for each way in which searches are put together, and one for questions that are answered
alike.  Which search path the indexes have in use is part of it, since only names are resolved on a search path
of their own.
-/

namespace CallGraph

open Source

/-- What two searches have around them in common. -/
structure Scene where
  files : FileTree
  searchPath : List Path
  experimental : Bool

/-! ### Quiet searches -/

/-- A request that neither asks a question nor widens the scope. -/
def Request.IsQuiet : Request → Prop
  | .await _ _ => False
  | .widen _ => False
  | _ => True

/-- A search that neither asks a question nor widens the scope. -/
def Search.IsQuiet {α : Type} : Search α → Prop
  | .done _ => True
  | .wait r next => r.IsQuiet ∧ ∀ reply, (next reply).IsQuiet

theorem Search.IsQuiet.bind {α β : Type} {s : Search α} {f : α → Search β} (h : s.IsQuiet)
    (hf : ∀ a, (f a).IsQuiet) :
  (s >>= f).IsQuiet
  := by
  induction s with
  | done a => exact hf a
  | wait r next ih => exact ⟨h.1, fun reply => ih reply (h.2 reply)⟩

theorem Search.isQuiet_request (r : Request) (hr : r.IsQuiet) :
  (request r).IsQuiet
  :=
  ⟨hr, fun _ => trivial⟩

theorem Search.isQuiet_report (e : ProviderError) (context : String) :
  (report e context).IsQuiet
  := by
  have hlog (line : LogLine) : (log line).IsQuiet := isQuiet_request (.log line) trivial
  unfold report
  split
  · exact hlog _
  · apply IsQuiet.bind (isQuiet_request .config trivial)
    intro config
    split
    · exact hlog _
    · exact hlog _

/-! ### One workspace of a scene -/

variable [Parser]

/-- A workspace of a scene, with a token that is not cancelled and an index that has one of some search paths in
use. -/
structure Workspace.Plays (w : Workspace Index) (c : Scene) (token : Token) (inUse : List Path → Prop) : Prop
    extends w.Consults c.files where
  searchPath : w.searchPath = c.searchPath
  experimental : w.getConfig.1.experimentalMode = c.experimental
  numbered : w.searches.signals.IsNumbered
  live : w.searches.isCancelled token = false
  inUse : inUse w.analysis.searchPath

variable {c : Scene} {token token' : Token} {I J : List Path → Prop} {W : Path → Prop}

/-- What an index answers to a question that mirrors a computation. -/
theorem Source.Index.Reached.answer_mirrors {files : FileTree} {x : Index} (h : x.Reached files) {q : Question}
    {searchPath : List Path} (hsearchPath : searchPathFor x.searchPath q = searchPath) {β : Type}
    {R : q.Answer → β → Prop} {b : ExceptT ProviderError Id β}
    (hmirrors : Mirrors files searchPath R ((indexed files searchPath).answer q) b) :
  Outcome files R (Index.answer files q x).1 b ∧ (Index.answer files q x).2.searchPath = searchPath
  := by
  rw [← Index.searchPath_prepared] at hsearchPath
  subst hsearchPath
  have hserves := h.isCurrent.serves_prepared q
  obtain ⟨hout, hserves'⟩ := hmirrors (· = files) rfl (by rintro _ rfl; exact .refl _) _ hserves
  exact ⟨hout, hserves'.searchPath⟩

namespace Workspace.Plays

variable {w : Workspace Index} (h : w.Plays c token I)

include h

/-- A workspace of a scene is one after any request. -/
theorem perform {r : Request} (hinUse : J (w.perform r).2.analysis.searchPath) :
  (w.perform r).2.Plays c token J
  := by
  refine ⟨h.toConsults.perform r, ?_, ?_, h.isNumbered_perform h.numbered r, ?_, hinUse⟩
  · rw [← h.searchPath]
    cases r <;> rfl
  · rw [w.getConfig_perform, h.experimental]
  · rw [h.isCancelled_perform, h.live]

theorem withInUse (hinUse : J w.analysis.searchPath) :
  w.Plays c token J
  :=
  ⟨h.toConsults, h.searchPath, h.experimental, h.numbered, h.live, hinUse⟩

theorem withToken {upper : Token} (hlive : w.searches.isCancelled upper = false) :
  w.Plays c upper I
  :=
  ⟨h.toConsults, h.searchPath, h.experimental, h.numbered, hlive, h.inUse⟩

theorem perform_quiet {r : Request} (hr : r.IsQuiet) :
  (w.perform r).2.Plays c token I ∧ (w.perform r).2.scope = w.scope
  := by
  have hsame : (w.perform r).2.analysis = w.analysis ∧ (w.perform r).2.scope = w.scope := by
    cases r with
    | pose q =>
      rw [h.perform_pose]
      exact ⟨rfl, rfl⟩
    | await _ _ | widen _ => cases hr
    | _ => exact ⟨rfl, rfl⟩
  refine ⟨h.perform ?_, hsame.2⟩
  rw [hsame.1]
  exact h.inUse

/-- A search that asks nothing leaves the index and the scope as they are. -/
theorem run_quiet {α : Type} {s : Search α} (hs : s.IsQuiet) :
  (w.run s).2.Plays c token I ∧ (w.run s).2.scope = w.scope
  := by
  induction s generalizing w with
  | done a => exact ⟨h, rfl⟩
  | wait r next ih =>
    obtain ⟨hplays, hscope⟩ := h.perform_quiet hs.1
    obtain ⟨hplays', hscope'⟩ := ih _ hplays (hs.2 _)
    exact ⟨hplays', hscope'.trans hscope⟩

theorem run_checkpoint_bind {α : Type} (f : Unit → Finding α) :
  w.run (Finding.checkpoint token >>= f).run = w.run (f ()).run
  := by
  have hcheckpoint : w.run (Finding.checkpoint token).run = (.ok (), w) := by
    unfold Finding.checkpoint Finding.request
    rw [run_lift_bind (run_request w (.isCancelled token))]
    rw [h.live]
    rfl
  exact run_bind_ok hcheckpoint

/-- A question that mirrors a computation. -/
theorem run_ask {q : Question} {searchPath : List Path}
    (hsearchPath : searchPathFor w.analysis.searchPath q = searchPath) {β : Type} {R : q.Answer → β → Prop}
    {b : ExceptT ProviderError Id β} (hmirrors : Mirrors c.files searchPath R ((indexed c.files searchPath).answer q) b)
    {search : Option Token} (hsearch : ∀ t ∈ search, t = token) :
  Outcome c.files R (w.run (Search.ask q search)).1 b ∧
    (w.run (Search.ask q search)).2.Plays c token (· = searchPath) ∧
    (w.run (Search.ask q search)).2.scope = w.scope
  := by
  have hlive : Provider.Desk.isCancelled ⟨w.analysis, w.searches⟩ search = false := by
    cases search with
    | none => rfl
    | some t =>
      rw [hsearch t rfl]
      exact h.live
  have hawait := h.perform_await q search
  rw [hlive, if_neg Bool.false_ne_true] at hawait
  obtain ⟨hout, hinUse⟩ := h.analysis.answer_mirrors hsearchPath hmirrors
  have hplays : (w.perform (.await q search)).2.Plays c token (· = searchPath) := by
    apply h.perform
    rw [hawait]
    exact hinUse
  rw [Search.ask, run_bind, run_request, h.perform_pose]
  dsimp only
  rw [run_request]
  refine ⟨?_, hplays, ?_⟩
  · rw [hawait]
    exact hout
  · rw [hawait]

end Workspace.Plays

/-! ### Searches -/

/-- Two scopes that were widened by the same files, all of some kind. -/
def WidenedAlike (files : FileTree) (W : Path → Prop) (before before' after after' : SearchScope) : Prop :=
  ∃ ps ps', List.Forall₂ files.Same ps ps' ∧ (∀ p ∈ ps, W p) ∧ after = before.insertAll ps ∧
    after' = before'.insertAll ps'

/-- Two searches that in any two workspaces of a scene have related results, lead to workspaces of the scene again
and widen the scopes by the same files, those of the first one being of some kind. -/
def Search.InStep {α α' : Type} (c : Scene) (token token' : Token) (I J : List Path → Prop) (W : Path → Prop)
    (R : α → α' → Prop) (s : Search α) (s' : Search α') : Prop :=
  ∀ w w' : Workspace Index, w.Plays c token I → w'.Plays c token' I →
    R (w.run s).1 (w'.run s').1 ∧ (w.run s).2.Plays c token J ∧ (w'.run s').2.Plays c token' J ∧
      WidenedAlike c.files W w.scope w'.scope (w.run s).2.scope (w'.run s').2.scope

namespace Search.InStep

variable {K : List Path → Prop} {α α' β β' : Type} {R : α → α' → Prop} {S : β → β' → Prop}

theorem pure {a : α} {a' : α'} (h : R a a') :
  InStep c token token' I I W R (Pure.pure a) (Pure.pure a')
  :=
  fun _ _ hw hw' => ⟨h, hw, hw', [], [], .nil, List.forall_mem_nil _, rfl, rfl⟩

/-- One search after the other. -/
theorem bind {s : Search α} {s' : Search α'} {f : α → Search β} {f' : α' → Search β'}
    (h : InStep c token token' I J W R s s') (hf : ∀ a a', R a a' → InStep c token token' J K W S (f a) (f' a')) :
  InStep c token token' I K W S (s >>= f) (s' >>= f')
  := by
  intro w w' hw hw'
  obtain ⟨hresult, hmiddle, hmiddle', ps, ps', hsame, hkind, hscope, hscope'⟩ := h w w' hw hw'
  obtain ⟨hresult, hend, hend', qs, qs', hsame', hkind', hscope₁, hscope₁'⟩ :=
    hf _ _ hresult _ _ hmiddle hmiddle'
  rw [Workspace.run_bind, Workspace.run_bind]
  refine ⟨hresult, hend, hend', ps ++ qs, ps' ++ qs', List.rel_append hsame hsame', ?_, ?_, ?_⟩
  · exact List.forall_mem_append.mpr ⟨hkind, hkind'⟩
  · rw [hscope₁, hscope, SearchScope.insertAll_append]
  · rw [hscope₁', hscope', SearchScope.insertAll_append]

/-- Fewer search paths to begin with. -/
theorem withInUse {s : Search α} {s' : Search α'} (h : InStep c token token' I J W R s s')
    (hK : ∀ searchPath, K searchPath → I searchPath) :
  InStep c token token' K J W R s s'
  :=
  fun w w' hw hw' => h w w' (hw.withInUse (hK _ hw.inUse)) (hw'.withInUse (hK _ hw'.inUse))

/-- Searches that ask nothing. -/
theorem quiet {s : Search α} {s' : Search α'} (hs : s.IsQuiet) (hs' : s'.IsQuiet)
    (hR : ∀ w w' : Workspace Index, w.Plays c token I → w'.Plays c token' I → R (w.run s).1 (w'.run s').1) :
  InStep c token token' I I W R s s'
  := by
  intro w w' hw hw'
  obtain ⟨hplays, hscope⟩ := hw.run_quiet hs
  obtain ⟨hplays', hscope'⟩ := hw'.run_quiet hs'
  exact ⟨hR w w' hw hw', hplays, hplays', [], [], .nil, List.forall_mem_nil _, hscope, hscope'⟩

/-- Searches without results that ask nothing. -/
theorem quietly {s s' : Search Unit} (hs : s.IsQuiet) (hs' : s'.IsQuiet) :
  InStep c token token' I I W Eq s s'
  :=
  quiet hs hs' fun _ _ _ _ => rfl

theorem log (line line' : LogLine) :
  InStep c token token' I I W Eq (Search.log line) (Search.log line')
  :=
  quietly (isQuiet_request (.log line) trivial) (isQuiet_request (.log line') trivial)

/-- Both searches get to know what they have in common. -/
theorem searchPath :
  InStep c token token' I I W (fun ps ps' => ps = c.searchPath ∧ ps' = c.searchPath) (request .searchPath)
    (request .searchPath)
  :=
  quiet (isQuiet_request .searchPath trivial) (isQuiet_request .searchPath trivial) fun _ _ hw hw' =>
    ⟨hw.searchPath, hw'.searchPath⟩

@[inherit_doc searchPath]
theorem files :
  InStep c token token' I I W (fun tree tree' => tree = c.files ∧ tree' = c.files) (request .files) (request .files)
  :=
  quiet (isQuiet_request .files trivial) (isQuiet_request .files trivial) fun _ _ hw hw' =>
    ⟨hw.files, hw'.files⟩

@[inherit_doc searchPath]
theorem config :
  InStep c token token' I I W
    (fun v v' => v.experimentalMode = c.experimental ∧ v'.experimentalMode = c.experimental)
    (request .config) (request .config)
  :=
  quiet (isQuiet_request .config trivial) (isQuiet_request .config trivial) fun _ _ hw hw' =>
    ⟨hw.experimental, hw'.experimental⟩

/-- Both searches widen the scope by the same file. -/
theorem widen {p p' : Path} (h : c.files.Same p p') (hp : W p) :
  InStep c token token' I I W Eq (request (.widen p)) (request (.widen p'))
  := by
  intro w w' hw hw'
  have hplays : (w.perform (.widen p)).2.Plays c token I := hw.perform hw.inUse
  have hplays' : (w'.perform (.widen p')).2.Plays c token' I := hw'.perform hw'.inUse
  exact ⟨rfl, hplays, hplays', [p], [p'], .cons h .nil, List.forall_mem_singleton.mpr hp, rfl, rfl⟩

/-- Questions that mirror one computation are answered alike. -/
theorem ask (q q' : Question) {γ : Type} {searchPath : List Path} {P : q.Answer → γ → Prop}
    {P' : q'.Answer → γ → Prop} {b : ExceptT ProviderError Id γ} {R : q.Answer → q'.Answer → Prop}
    (hI : ∀ inUse, I inUse → searchPathFor inUse q = searchPath ∧ searchPathFor inUse q' = searchPath)
    (h : Mirrors c.files searchPath P ((indexed c.files searchPath).answer q) b)
    (h' : Mirrors c.files searchPath P' ((indexed c.files searchPath).answer q') b)
    (hR : ∀ a a' z, b = .ok z → P a z → P' a' z → R a a') {search search' : Option Token}
    (hsearch : ∀ t ∈ search, t = token) (hsearch' : ∀ t ∈ search', t = token') :
  InStep c token token' I (· = searchPath) W (Outcome c.files R) (Search.ask q search) (Search.ask q' search')
  := by
  intro w w' hw hw'
  obtain ⟨hout, hplays, hscope⟩ := hw.run_ask (hI _ hw.inUse).1 h hsearch
  obtain ⟨hout', hplays', hscope'⟩ := hw'.run_ask (hI _ hw'.inUse).2 h' hsearch'
  exact ⟨hout.join hout' hR, hplays, hplays', [], [], .nil, List.forall_mem_nil _, hscope, hscope'⟩

end Search.InStep

/-! ### Searches that may fail -/

/-- Searches that may fail and are in step, whether they fail or not. -/
def Finding.InStep {α α' : Type} (c : Scene) (token token' : Token) (I J : List Path → Prop) (W : Path → Prop)
    (R : α → α' → Prop) (s : Finding α) (s' : Finding α') : Prop :=
  Search.InStep c token token' I J W (Outcome c.files R) s.run s'.run

namespace Finding.InStep

variable {K : List Path → Prop} {α α' β β' : Type} {R : α → α' → Prop} {S : β → β' → Prop}

theorem pure {a : α} {a' : α'} (h : R a a') :
  InStep c token token' I I W R (Pure.pure a) (Pure.pure a')
  :=
  Search.InStep.pure (.ok h)

theorem throw (e : ProviderError) :
  InStep c token token' I I W R (MonadExcept.throw e) (MonadExcept.throw e)
  :=
  Search.InStep.pure (.error (.refl e))

/-- One search after the other, either of which may fail. -/
theorem bind {s : Finding α} {s' : Finding α'} {f : α → Finding β} {f' : α' → Finding β'}
    (h : InStep c token token' I J W R s s') (hf : ∀ a a', R a a' → InStep c token token' J J W S (f a) (f' a')) :
  InStep c token token' I J W S (s >>= f) (s' >>= f')
  := by
  apply Search.InStep.bind h
  rintro _ _ (h | h)
  · exact hf _ _ h
  · exact .pure (.error h)

/-- One search after another one that cannot fail. -/
theorem lift_bind {s : Search α} {s' : Search α'} {f : α → Finding β} {f' : α' → Finding β'}
    (h : Search.InStep c token token' I J W R s s')
    (hf : ∀ a a', R a a' → InStep c token token' J K W S (f a) (f' a')) :
  InStep c token token' I K W S (ExceptT.lift s >>= f) (ExceptT.lift s' >>= f')
  := by
  intro w w' hw hw'
  have hbind := Search.InStep.bind h hf w w' hw hw'
  rw [Workspace.run_bind, Workspace.run_bind] at hbind
  rw [Workspace.run_lift_bind rfl, Workspace.run_lift_bind rfl]
  exact hbind

/-- Neither search is cancelled. -/
theorem checkpoint_bind {f : Unit → Finding β} {f' : Unit → Finding β'}
    (h : InStep c token token' I J W S (f ()) (f' ())) :
  InStep c token token' I J W S (checkpoint token >>= f) (checkpoint token' >>= f')
  := by
  intro w w' hw hw'
  rw [hw.run_checkpoint_bind, hw'.run_checkpoint_bind]
  exact h w w' hw hw'

/-- Failures alike that go no further. -/
theorem contained {r : Except ProviderError α} {r' : Except ProviderError α'} (h : Outcome c.files R r r')
    {default : α} {default' : α'} (hdefault : R default default') (context context' : String) :
  InStep c token token' I I W R (contained r default context) (contained r' default' context')
  := by
  have hreported (e e' : ProviderError) :
      InStep c token token' I I W R
        (do ExceptT.lift (Search.report e context); Pure.pure default)
        (do ExceptT.lift (Search.report e' context'); Pure.pure default') :=
    lift_bind (.quietly (Search.isQuiet_report e context) (Search.isQuiet_report e' context')) fun _ _ _ =>
      .pure hdefault
  cases h with
  | ok h => exact .pure h
  | error h =>
    cases h with
    | unparsable h => exact hreported _ _
    | refl =>
      rename_i e
      cases e with
      | cancelled => exact .throw _
      | _ => exact hreported _ _

end Finding.InStep

end CallGraph
