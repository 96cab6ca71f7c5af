import CallGraph.Proofs.Frontier.Coherent
import CallGraph.Proofs.Frontier.Roots

/-!
# Resolving beside a navigation

Modules and scripts are resolved beside the searches of a navigation: no search is begun and none is cancelled.  An
entry that is resolved becomes a node with a number of its own, which shows the entry.
-/

namespace CallGraph

variable {σ α β : Type} {A : Setting}

/-! ### Searches that begin no search -/

/-- A request that leaves the list of searches under way alone. -/
def Request.LeavesLive : Request → Prop
  | .enter _ | .leave _ => False
  | _ => True

namespace Search

/-- A search that leaves the list of searches under way alone. -/
def LeavesLive : Search α → Prop
  | .done _ => True
  | .wait r next => r.LeavesLive ∧ ∀ reply, (next reply).LeavesLive

/-- One search after the other. -/
theorem LeavesLive.bind {s : Search α} {f : α → Search β} (h : s.LeavesLive) (hf : ∀ a, (f a).LeavesLive) :
  (s >>= f).LeavesLive
  := by
  induction s with
  | done a => exact hf a
  | wait r next ih => exact ⟨h.1, fun reply => ih reply (h.2 reply)⟩

/-- A search that heeds a conduct begins none. -/
theorem Heeds.leavesLive {c : Conduct} {stop : α → Prop} {s : Search α} (h : s.Heeds c stop) :
  s.LeavesLive
  := by
  induction s with
  | done a => trivial
  | wait r next ih =>
    refine ⟨?_, fun reply => ih reply (h.2 reply)⟩
    cases r with
    | enter caller => exact h.1
    | leave search => exact h.1
    | _ => trivial

theorem leavesLive_node (v : Vertex) :
  (node v).LeavesLive
  :=
  ⟨trivial, fun _ => trivial⟩

theorem leavesLive_nodes (vs : List Vertex) :
  (nodes vs).LeavesLive
  := by
  induction vs with
  | nil => trivial
  | cons v vs ih => exact (leavesLive_node v).bind fun _ => ih.bind fun _ => trivial

theorem leavesLive_moduleNode (searchPath : List Path) (name : String) :
  (moduleNode searchPath name).LeavesLive
  := by
  have hvertex := heeds_moduleVertex (c := ⟨fun _ => True, fun _ => True, True⟩) (fun _ _ => trivial) trivial
    searchPath name
  apply hvertex.leavesLive.bind
  intro resolved
  cases resolved with
  | ok v => exact (leavesLive_node v).bind fun _ => trivial
  | error e => trivial

theorem leavesLive_scriptChildren (path : Path) (d : Definition) :
  (scriptChildren path d).LeavesLive
  := by
  refine ⟨trivial, fun token => ?_⟩
  have hlooks : (⟨fun _ => True, fun _ => True, True⟩ : Conduct).looks token := trivial
  have hfound := Finding.heeds_callSiteVertices (fun _ _ => trivial) hlooks d
  apply (Heeds.leavesLive hfound).bind
  intro found
  have hcontained := Finding.heeds_contained (c := ⟨fun _ => True, fun _ => True, True⟩) found []
    s!"while finding outbound connections of script {path}"
  apply (Heeds.leavesLive hcontained).bind
  intro contained
  cases contained with
  | ok vs => trivial
  | error e => trivial

theorem leavesLive_scriptNode (searchPath : List Path) (path : Path) :
  (scriptNode searchPath path).LeavesLive
  := by
  have hasked := heeds_ask_none (c := ⟨fun _ => True, fun _ => True, True⟩) (q := .script path searchPath) trivial
  apply (Heeds.leavesLive hasked).bind
  intro answer
  cases answer with
  | error e => trivial
  | ok d =>
    apply (leavesLive_scriptChildren path d).bind
    intro vs
    apply (leavesLive_nodes vs).bind
    intro children
    obtain ⟨name, kind, module, file, start, stop⟩ := d
    cases file with
    | none => exact ⟨trivial, fun _ => ⟨trivial, fun _ => trivial⟩⟩
    | some file => exact ⟨trivial, fun _ => ⟨trivial, fun _ => ⟨trivial, fun _ => trivial⟩⟩⟩

theorem leavesLive_rootsOf {κ : Type} [BEq κ] {resolve : κ → Search (Except ResolutionError Node)}
    (h : ∀ key, (resolve key).LeavesLive) (keys : List κ) (r : Roots κ) :
  (rootsOf resolve r keys).LeavesLive
  := by
  induction keys generalizing r with
  | nil => trivial
  | cons key keys ih =>
    apply (h key).bind
    intro outcome
    cases outcome with
    | ok node => exact ih _
    | error e => exact ⟨trivial, fun _ => ih _⟩

end Search

namespace Workspace

variable {w w' w'' : Workspace σ}

/-- What others leave alone in a workspace while columns are shown over it. -/
structure Spares (w w' : Workspace σ) : Prop extends GoesOn w w' where
  searches : w.searches.Spares w'.searches
  rooted : w.searches.Rooted → w'.searches.Rooted
  config : w'.getConfig.1 = w.getConfig.1

namespace Spares

theorem refl (w : Workspace σ) :
  w.Spares w
  :=
  ⟨.refl w, .refl _, id, rfl⟩

theorem trans (h : w.Spares w') (h' : w'.Spares w'') :
  w.Spares w''
  :=
  ⟨h.toGoesOn.trans h'.toGoesOn, h.searches.trans h'.searches, h'.rooted ∘ h.rooted, h'.config.trans h.config⟩

theorem perform (hp : w.provider.LeavesSearches) {r : Request} (hr : r.LeavesLive) :
  w.Spares (w.perform r).2
  := by
  have hhandles : w.provider.SparesHandles :=
    ⟨fun q d => hp.pose q d ▸ .refl _, fun files q token d => hp.answer files q token d ▸ .refl _⟩
  have hspares := w.perform_spares hhandles r
  refine ⟨.perform w r, hspares, fun hrooted => ?_, w.getConfig_perform r⟩
  apply hrooted.mono hspares.next
  · cases r with
    | pose q => exact congrArg Searches.live (hp.pose q ⟨w.analysis, w.searches⟩)
    | await q token => exact congrArg Searches.live (hp.answer w.files q token ⟨w.analysis, w.searches⟩)
    | enter caller => cases hr
    | leave search => cases hr
    | _ => rfl
  · intro t ht
    rw [isCancelled_perform hp] at ht
    exact .inl ht

theorem run {s : Search α} (hs : s.LeavesLive) (hp : w.provider.LeavesSearches) :
  w.Spares (w.run s).2
  := by
  induction s generalizing w with
  | done a => exact .refl w
  | wait r next ih =>
    have hperform := perform hp hs.1
    exact hperform.trans (ih _ (hs.2 _) (hperform.provider ▸ hp))

/-- What takes no part in searches is changed. -/
theorem aside (w : Workspace σ) (scope : SearchScope) (searchPath : List Path) (log : List LogLine) :
  w.Spares { w with scope, searchPath, log }
  :=
  ⟨⟨rfl, fun _ => id, rfl, Nat.le_refl _⟩, .refl _, id, rfl⟩

/-- All searches are cancelled, none of which has a handle for its token. -/
theorem cancelSearches (hsound : w.searches.Sound) :
  w.Spares w.cancelSearches
  := by
  have hnext : w.searches.signals.next ≤ w.cancelSearches.searches.signals.next :=
    Nat.le_of_eq (Signals.next_foldl_cancel _ _).symm
  refine ⟨⟨rfl, fun _ => id, rfl, Nat.le_refl _⟩, ⟨?_, ?_, hnext, fun _ => id⟩, fun hrooted => ?_, rfl⟩
  · intro k
    apply Bool.eq_iff_iff.mpr
    refine (w.searches.isCancelled_cancelAll _).trans (or_iff_right ?_)
    rintro ⟨u, hu, hcovers⟩
    cases Token.covers_root_iff.mp hcovers
    exact hsound.live k hu
  · intro k
    exact congrArg (List.contains · (Token.root k)) (Signals.finished_foldl_cancel _ _)
  · apply hrooted.mono hnext rfl
    intro t ht
    rcases (w.searches.isCancelled_cancelAll t).mp ht with ⟨u, hu, hcovers⟩ | ht
    · obtain ⟨h, hissued, hcovered⟩ := hrooted.live u hu
      exact .inr ⟨h, hissued, hcovered.trans hcovers⟩
    · exact .inl ht

end Spares

/-! ### What is resolved -/

/-- A provider whose answers are fixed leaves the searches under way alone. -/
theorem Answers.leavesSearches {answers : (q : Question) → Except ProviderError q.Answer} (h : w.Answers answers) :
  w.provider.LeavesSearches
  := by
  obtain ⟨states, hsteady, -⟩ := h
  exact ⟨(hsteady w.files).searches_pose, (hsteady w.files).searches_answer⟩

/-- The setting of a workspace whose provider answers as in another one. -/
def setting (w : Workspace σ) (A : Setting) : Setting :=
  { A with experimental := w.getConfig.1.experimentalMode, files := w.files, searchPath := w.searchPath }

theorem Answers.fits (h : w.Answers A.answers) :
  w.Fits (w.setting A)
  := by
  obtain ⟨states, hsteady, hstates⟩ := h
  exact ⟨⟨states, hsteady w.files, hstates⟩, rfl, rfl, rfl⟩

end Workspace

/-! ### Scripts -/

namespace Finding

variable {A' : Setting}

theorem result_bind_congr {s : Finding α} {f : α → Finding β} (h : s.run.result A = s.run.result A')
    (hf : ∀ a, (f a).run.result A = (f a).run.result A') :
  (s >>= f).run.result A = (s >>= f).run.result A'
  := by
  rw [ExceptT.run_bind, Search.result_bind, Search.result_bind, h]
  cases s.run.result A' with
  | ok a => exact hf a
  | error e => rfl

theorem result_askContained_congr (h : A.answers = A'.answers) (q : Question) (token : Token) (default : q.Answer)
    (context : String) :
  (askContained q token default context).run.result A = (askContained q token default context).run.result A'
  := by
  have hasked (A : Setting) : (ExceptT.lift (Search.ask q (some token)) : Finding _).run.result A =
      .ok (A.answers q) := rfl
  have hreported (e : ProviderError) (A : Setting) :
      (do ExceptT.lift (Search.report e context); pure default : Finding q.Answer).run.result A = .ok default := by
    rw [ExceptT.run_bind, Search.result_bind, result_lift]
    rfl
  apply result_bind_congr
  · rw [hasked, hasked, h]
  · intro r
    cases r with
    | ok a => rfl
    | error e =>
      cases e with
      | cancelled => rfl
      | _ => exact (hreported _ A).trans (hreported _ A').symm

/-- What is found at the top level of a script depends on the answers only. -/
theorem result_callSiteVertices_congr (h : A.answers = A'.answers) (d : Definition) (token : Token) :
  (callSiteVertices d token).run.result A = (callSiteVertices d token).run.result A'
  := by
  apply result_bind_congr
  · exact congrFun h (.callSites d)
  · intro sites
    induction sites with
    | nil => rfl
    | cons site sites ih =>
      apply result_bind_congr
      · rfl
      · intro _
        apply result_bind_congr (result_askContained_congr h _ token _ _)
        intro targets
        exact result_bind_congr ih fun rest => rfl

end Finding

namespace Setting

variable {A' : Setting}

end Setting

namespace Workspace

variable {w : Workspace σ}

/-- As long as nothing is cancelled but below handles, a new token is not. -/
theorem isCancelled_below_fresh (hrooted : w.searches.Rooted) {t : Token}
    (ht : (Token.root w.searches.signals.next).Covers t) :
  w.searches.isCancelled t = false
  := by
  cases hcancelled : w.searches.isCancelled t with
  | false => rfl
  | true =>
    obtain ⟨_, ⟨k, hk, rfl⟩, hcovers⟩ := hrooted.cancelled t hcancelled
    cases Token.root_unique hcovers ht
    exact absurd hk (Nat.lt_irrefl _)

/-- The children of a script are found as they are as long as nothing is cancelled but below handles. -/
theorem Answers.run_scriptChildren (h : w.Answers A.answers) (hrooted : w.searches.Rooted) (path : Path)
    (d : Definition) :
  (w.run (Search.scriptChildren path d)).1 = (Search.scriptChildren path d).result A
  := by
  -- Whatever token the search has, it finds the same.
  have hfixed : Search.Fixed (w.setting A) (fun token : Token => ⟨token, true⟩) (Search.scriptChildrenUnder path d) := by
    apply Search.Fixed.bind (Finding.fixed_callSiteVertices (fun token => token.covers_self) d)
    intro found
    apply Search.Fixed.bind (Finding.fixed_contained found [] _)
    intro contained
    cases contained with
    | ok vs => exact .pure vs
    | error e => exact .pure []
  obtain ⟨vs, hvs⟩ := hfixed
  have hrun : (w.run (Search.scriptChildren path d)).1 = vs := by
    refine (h.fits.perform .freshToken).run_ensures (hvs (.root w.searches.signals.next)) (fun _ t ht => ?_) rfl
    exact (h.fits.isCancelled_perform .freshToken t).trans (isCancelled_below_fresh hrooted ht)
  have hresult : (Search.scriptChildren path d).result (w.setting A) = vs := (hvs (.root 0)).result rfl
  have hanswers : (w.setting A).answers = A.answers := rfl
  rw [hrun, ← hresult, Search.result_scriptChildren, Search.result_scriptChildren,
    Finding.result_callSiteVertices_congr hanswers]

/-! ### Roots -/

/-- A module that is resolved is shown by a node with a new number. -/
theorem Answers.shows_moduleNode (h : w.Answers A.answers) {name : String} {node : Node}
    (hnode : (w.run (Search.moduleNode A.searchPath name)).1 = .ok node) :
  A.ShowsModule name node ∧ w.nextNode ≤ node.number ∧
    node.number < (w.run (Search.moduleNode A.searchPath name)).2.nextNode
  := by
  have hanswer := h.run_ask (.resolve name A.searchPath)
  have hnext := (GoesOn.run w (Search.ask (.resolve name A.searchPath) none)).nextNode
  rw [Search.moduleNode, Search.moduleVertex, run_bind, run_bind, hanswer] at hnode ⊢
  generalize (w.run (Search.ask (.resolve name A.searchPath) none)).2 = w' at hnode hnext ⊢
  cases hresolved : A.answers (.resolve name A.searchPath) with
  | error e =>
    rw [hresolved] at hnode
    cases hnode
  | ok found =>
    rw [hresolved] at hnode
    cases found with
    | none => cases hnode
    | some d =>
      have hshown (number : Nat) := Setting.ShowsModule.mk number hresolved
      obtain ⟨name, kind, module, file, start, stop⟩ := d
      cases file with
      | none =>
        cases hnode
        exact ⟨hshown _, hnext, Nat.lt_succ_self _⟩
      | some file =>
        cases hnode
        exact ⟨hshown _, hnext, Nat.lt_succ_self _⟩

/-- A script that is resolved is shown by a node with a new number. -/
theorem Answers.shows_scriptNode (h : w.Answers A.answers) (hrooted : w.searches.Rooted) {path : Path} {node : Node}
    (hnode : (w.run (Search.scriptNode A.searchPath path)).1 = .ok node) :
  A.ShowsScript w.files path node ∧ w.nextNode ≤ node.number ∧
    node.number < (w.run (Search.scriptNode A.searchPath path)).2.nextNode
  := by
  have hanswer := h.run_ask (.script path A.searchPath)
  have hask := Search.heeds_ask_none (c := ⟨fun _ => True, fun _ => True, True⟩) (q := .script path A.searchPath) trivial
  have hasked := Spares.run (w := w) (Search.Heeds.leavesLive hask) h.leavesSearches
  have hw' := h.run (Search.ask (.script path A.searchPath) none)
  rw [Search.scriptNode, run_bind, hanswer] at hnode ⊢
  rw [← hasked.files]
  generalize (w.run (Search.ask (.script path A.searchPath) none)).2 = w' at *
  cases hresolved : A.answers (.script path A.searchPath) with
  | error e =>
    rw [hresolved] at hnode
    cases hnode
  | ok d =>
    have hchildren := hw'.run_scriptChildren (hasked.rooted hrooted) path d
    have hfound := GoesOn.run w' (Search.scriptChildren path d)
    rw [hresolved] at hnode
    dsimp only at hnode ⊢
    rw [run_bind, run_bind, run_nodes_eq_numbered, hchildren] at hnode ⊢
    have hmade := GoesOn.run (w'.run (Search.scriptChildren path d)).2
      (Search.nodes ((Search.scriptChildren path d).result A))
    have hfiles := hmade.files.trans hfound.files
    have hnext := Nat.le_trans hasked.nextNode (Nat.le_trans hfound.nextNode hmade.nextNode)
    have hshown (number : Nat) :
        A.ShowsScript w'.files path (.organizer number (Search.scriptElement w'.files path d) []
          (Node.numbered (w'.run (Search.scriptChildren path d)).2.nextNode
            ((Search.scriptChildren path d).result A))) :=
      .mk number _ hresolved
    generalize ((w'.run (Search.scriptChildren path d)).2.run
      (Search.nodes ((Search.scriptChildren path d).result A))).2 = w'' at *
    obtain ⟨name, kind, module, file, start, stop⟩ := d
    rw [← hfiles] at hshown ⊢
    cases file with
    | none =>
      cases hnode
      exact ⟨hshown _, hnext, Nat.lt_succ_self _⟩
    | some file =>
      cases hnode
      exact ⟨hshown _, hnext, Nat.lt_succ_self _⟩

end Workspace

end CallGraph
